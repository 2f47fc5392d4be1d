import RegisterMachine.Command
import RegisterMachine.Main
import RegisterMachine.Session
import RegisterMachine.Proofs.History
import RegisterMachine.Proofs.Extensionality
import RegisterMachine.Proofs.AbstractMachine
import RegisterMachine.Proofs.SessionHistory
import RegisterMachine.Proofs.PrimeTables
import RegisterMachine.Proofs.PrimeWalk
import RegisterMachine.Proofs.VectorCodec
import RegisterMachine.Proofs.MissingPrimes
import RegisterMachine.Proofs.ByteFormat
import RegisterMachine.Proofs.PrefixCode
import RegisterMachine.Proofs.CanonicalBytes
import RegisterMachine.Proofs.InstructionCodec
import RegisterMachine.Proofs.ProgramCodec
import RegisterMachine.Proofs.NumberLists
import RegisterMachine.Proofs.DecodedRuns
import RegisterMachine.Proofs.OwnSlots
import RegisterMachine.Proofs.Verdicts
import RegisterMachine.Proofs.GapFree
import RegisterMachine.Proofs.Spelling
import RegisterMachine.Proofs.Layouts
import RegisterMachine.Proofs.Phrases
import RegisterMachine.Proofs.LineGrammar
import RegisterMachine.Proofs.FreeLayout
import RegisterMachine.Proofs.Relocation
import RegisterMachine.Proofs.JoinedSources
import RegisterMachine.Proofs.ComplaintPlaces
import RegisterMachine.Proofs.AdmissionPaths
import RegisterMachine.Proofs.ProgramText
import RegisterMachine.Proofs.Containment
import RegisterMachine.Proofs.ArithmeticPrograms
import RegisterMachine.Proofs.Courses
import RegisterMachine.Proofs.Growth
import RegisterMachine.Proofs.Tracing
import RegisterMachine.Proofs.RepeatedCalls
import RegisterMachine.Proofs.CheckOutcomes
import RegisterMachine.Proofs.Mentions
import RegisterMachine.Proofs.CommandPipeline
import RegisterMachine.Proofs.ListingLines
