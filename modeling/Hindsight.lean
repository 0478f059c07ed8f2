import Hindsight.Machine.Text
import Hindsight.Session
import Hindsight.Emulator.Toolchain
import Hindsight.CommandLine.Report
import Hindsight.Main
import Hindsight.Proofs.Emulator.DirectRun
import Hindsight.Proofs.Emulator.Reruns
import Hindsight.Proofs.Isa.Sweep
import Hindsight.Proofs.Assembly.Disassembly
import Hindsight.Proofs.Interaction
import Hindsight.Proofs.Timeline.Minimality
import Hindsight.Proofs.Timeline.Stopping
import Hindsight.Proofs.Timeline.StepCap
import Hindsight.Proofs.Timeline.Reruns
import Hindsight.Proofs.Timeline.Navigation
import Hindsight.Proofs.Timeline.Sessions
import Hindsight.Proofs.Assembly.Emission
import Hindsight.Proofs.Assembly.Layout
import Hindsight.Proofs.Assembly.TwoPasses
import Hindsight.Proofs.Assembly.Grammar
import Hindsight.Proofs.Assembly.Scanning
import Hindsight.Proofs.Assembly.LineLanguage
import Hindsight.Proofs.Assembly.Meaning
import Hindsight.Proofs.Assembly.Listing
import Hindsight.Proofs.Assembly.LineMap
import Hindsight.Proofs.Emulator.Resumption
import Hindsight.Proofs.Assembly.Diagnostics
import Hindsight.Proofs.Emulator.Tallies
import Hindsight.Proofs.Emulator.Invariants
import Hindsight.Proofs.Emulator.MoreInput
import Hindsight.Proofs.Emulator.StraightLine
import Hindsight.Proofs.Timeline.Wrapping
import Hindsight.Proofs.Timeline.Starting
import Hindsight.Proofs.CommandLine.Pages
import Hindsight.Proofs.Emulator.Noninterference
import Hindsight.Proofs.Emulator.Faults
import Hindsight.Proofs.Emulator.Transitions
import Hindsight.Proofs.Emulator.WordArithmetic
import Hindsight.Proofs.Emulator.Waiting
import Hindsight.Proofs.Emulator.Division
import Hindsight.Proofs.Isa.Encoding
import Hindsight.Proofs.Timeline.Coverage
import Hindsight.Proofs.Timeline.LastWriter
import Hindsight.Proofs.Timeline.Buffers
import Hindsight.Proofs.CommandLine.Literals
import Hindsight.Proofs.Assembly.Reprinting
import Hindsight.Proofs.Assembly.Insertion
