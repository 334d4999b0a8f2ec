import Beans.Json.Accepts
import Beans.Json.Lowering

/-!
# The meaning of a record, field by field

An emitted schema finds the fields by their accepted names.  Whatever a lowering
stores for a field, it produces the meaning of a record as soon as it does so
for the single values.
-/

namespace Beans
namespace Json

open SlotFilling HirType

variable {declaration : StructType} {rootArray : Bool} {members : Members}
  {name : Text} {index : ℕ} {field : HirField HirType}

section Places

variable (hdistinct : namesDistinct declaration.fields = true)
include hdistinct

end Places

/-- How a lowering stands for the values of fields. -/
structure Stands {σ : Type} (declaration : StructType) (members : Members)
    (store : ℕ → Value → Option σ) (fresh : HirField HirType → σ)
    (shown : HirField HirType → σ → Datum) : Prop where
  stored : ∀ (index : ℕ) field, declaration.fields[index]? = some field →
    ∀ member ∈ members, field.spec.names member.1 = true →
      (store index member.2).map (shown field) = decodeType field.type member.2
  ignored : ∀ field ∈ declaration.fields, field.spec.ignored = true →
    ∀ storage, shown field storage = field.spec.defaultValue
  missing : ∀ field ∈ declaration.fields, field.spec.ignored = false →
    ∀ datum, missingDatum field = some datum → shown field (fresh field) = datum

end Json
end Beans
