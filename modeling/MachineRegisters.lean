import MachineRegisters.Machine.Changes
import MachineRegisters.Machine.Operation
import MachineRegisters.Main
import MachineRegisters.Proofs.Effects
import MachineRegisters.Proofs.Placement
import MachineRegisters.Proofs.SpanBits
import MachineRegisters.Proofs.Storage
import MachineRegisters.Proofs.RegisterLaws
import MachineRegisters.Proofs.FlagStorage
import MachineRegisters.Proofs.Forcing
import MachineRegisters.Proofs.Catalogs
import MachineRegisters.Proofs.Finding
import MachineRegisters.Proofs.Snapshots
import MachineRegisters.Proofs.Pieces
import MachineRegisters.Proofs.Reading
import MachineRegisters.Proofs.RoundTrip
import MachineRegisters.Proofs.Installing
import MachineRegisters.Proofs.LeastChange
import MachineRegisters.Proofs.Comparing
import MachineRegisters.Proofs.Refusing
import MachineRegisters.Proofs.PrintedForm
import MachineRegisters.Proofs.HeldBits
import MachineRegisters.Proofs.Interference
import MachineRegisters.Proofs.FlagSetting
import MachineRegisters.Proofs.Guarding
import MachineRegisters.Proofs.Numerals
import MachineRegisters.Proofs.FirstFaults
import MachineRegisters.Proofs.Stepwise.Lookup
import MachineRegisters.Proofs.Stepwise.Spans
import MachineRegisters.Proofs.Stepwise.Runs
import MachineRegisters.Proofs.TableRows
import MachineRegisters.Proofs.FirstBadLine
import MachineRegisters.Proofs.FlagReading
import MachineRegisters.Proofs.TableText
import MachineRegisters.Proofs.JoinedTexts
import MachineRegisters.Proofs.LaidOut
import MachineRegisters.Proofs.AutomaticPlaces
import MachineRegisters.Proofs.Stepwise.FixedWidth
import MachineRegisters.Proofs.Uncovered
import MachineRegisters.Proofs.Dumps
import MachineRegisters.Proofs.HexLoading
import MachineRegisters.Proofs.Routes
import MachineRegisters.Proofs.DefinitionLines
import MachineRegisters.Proofs.Resizing
import MachineRegisters.Proofs.Siblings
import MachineRegisters.Proofs.SequentialReading
import MachineRegisters.Proofs.NumberTokens
import MachineRegisters.Proofs.Listings
