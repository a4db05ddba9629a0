import TinyC.Main
import TinyC.Proofs.Machine.ErrorPlaces
import TinyC.Proofs.Machine.InitialValues
import TinyC.Proofs.Machine.Isolation
import TinyC.Proofs.Machine.MainCall
import TinyC.Proofs.Machine.Memo
import TinyC.Proofs.Machine.Readback
import TinyC.Proofs.Machine.Returns
import TinyC.Proofs.Machine.Tags
import TinyC.Proofs.Module.Operands
import TinyC.Proofs.Module.Respelled
import TinyC.Proofs.Symbol.Resolution
import TinyC.Proofs.Token.Progress
import TinyC.Proofs.Toolchain.Atomic
import TinyC.Proofs.Typing.Judged
import TinyC.Proofs.Typing.Located
import TinyC.Proofs.Typing.Slots
