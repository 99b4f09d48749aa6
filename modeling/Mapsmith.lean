import Mapsmith.Main
import Mapsmith.Schema.Check
import Mapsmith.Script.Edit
import Mapsmith.Script.Outline
import Mapsmith.Value.Edit
import Mapsmith.Proofs.Format.Registry
import Mapsmith.Proofs.Schema.Choice
import Mapsmith.Proofs.Schema.Decisions
import Mapsmith.Proofs.Script.Formatting
import Mapsmith.Proofs.Script.Binding
import Mapsmith.Proofs.Script.Offending
import Mapsmith.Proofs.Script.Substitution
import Mapsmith.Proofs.Schema.Extent
import Mapsmith.Proofs.Schema.Mirroring
import Mapsmith.Proofs.Schema.Checked
import Mapsmith.Proofs.Format.Magic
import Mapsmith.Proofs.Script.Comments
import Mapsmith.Proofs.Script.Changes
import Mapsmith.Proofs.Schema.PackedValue
import Mapsmith.Proofs.Schema.Visits
import Mapsmith.Proofs.Schema.Supplement
import Mapsmith.Proofs.Schema.Bounds
import Mapsmith.Proofs.Schema.PackedCover
import Mapsmith.Proofs.Schema.EqualDocuments
import Mapsmith.Proofs.Format.OtherLayout
import Mapsmith.Proofs.Schema.Rollback
import Mapsmith.Proofs.Format.Ownership
import Mapsmith.Proofs.Script.LineStarts
import Mapsmith.Proofs.Script.Respacing
import Mapsmith.Proofs.Script.Composition
import Mapsmith.Proofs.Script.Locality
import Mapsmith.Proofs.Script.Editing
import Mapsmith.Proofs.Script.Indentation
import Mapsmith.Proofs.Script.Limit
import Mapsmith.Proofs.Schema.PackedCheck
import Mapsmith.Proofs.Format.Entries
