import StackEffect.Main
import StackEffect.Proofs.Brackets
import StackEffect.Proofs.Finding
import StackEffect.Proofs.Interning
import StackEffect.Proofs.Lines
import StackEffect.Proofs.LinesAndColumns
import StackEffect.Proofs.Literals
import StackEffect.Proofs.MemberAddresses
import StackEffect.Proofs.NameIndexes
import StackEffect.Proofs.Rebinding
import StackEffect.Proofs.RenderedLines
import StackEffect.Proofs.Rules
import StackEffect.Proofs.Safety
import StackEffect.Proofs.Sessions
import StackEffect.Proofs.SpelledConstants
import StackEffect.Proofs.Transparency
