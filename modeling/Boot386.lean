import Boot386.Main
import Boot386.Encoding.Listing
import Boot386.Machine.Command
import Boot386.Proofs.Checked.Run
import Boot386.Proofs.Machine.Fault
import Boot386.Proofs.Machine.Branch
import Boot386.Proofs.Machine.Cause
import Boot386.Proofs.Machine.Extension
import Boot386.Proofs.Console.Exchange
import Boot386.Proofs.Machine.Output
import Boot386.Proofs.Machine.Input
import Boot386.Proofs.Machine.Untouched
import Boot386.Proofs.Machine.Frame
import Boot386.Proofs.Machine.Effect
import Boot386.Proofs.Machine.Transcript
import Boot386.Proofs.Encoding.Standard
import Boot386.Proofs.Machine.Straight
import Boot386.Proofs.Instruction.Text
import Boot386.Proofs.Program.Echo
import Boot386.Proofs.Program.Count
import Boot386.Proofs.Memory.Edits
import Boot386.Proofs.Machine.Stack
import Boot386.Proofs.Register
import Boot386.Proofs.Encoding.ModRM
import Boot386.Proofs.Machine.FlagSets
import Boot386.Proofs.Machine.Composite
import Boot386.Proofs.CommandLine
import Boot386.Proofs.Checked.Tape
import Boot386.Proofs.Fault
