import Adorn.Expr.Builder
import Adorn.Log.Host
import Adorn.Proofs.Attachments
import Adorn.Proofs.Canonical
import Adorn.Proofs.Controls
import Adorn.Proofs.Decorators
import Adorn.Proofs.Expr.Written
import Adorn.Proofs.Log.Requests
import Adorn.Proofs.MemberBuilders
import Adorn.Proofs.OptionsDocument
import Adorn.Proofs.Registrations
import Adorn.Proofs.Synthesis.Arguments
import Adorn.Proofs.Synthesis.Names
import Adorn.Proofs.Synthesis.Padding
import Adorn.Proofs.Synthesis.Traces
import Adorn.Proofs.Truncation
import Adorn.Session
