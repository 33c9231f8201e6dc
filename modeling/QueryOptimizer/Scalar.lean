import QueryOptimizer.DataType
import QueryOptimizer.Decimal

/-! # Constant values

Floating point values are kept as bits: two of them are equal when their bits are.
-/

namespace QueryOptimizer

/-- A constant. -/
inductive Scalar where
  /-- No value, of a known type. -/
  | null (type : DataType)
  | boolean (value : Bool)
  | integer (kind : IntegerKind) (value : Int)
  | float32 (bits : UInt32)
  | float64 (bits : UInt64)
  | utf8 (value : String)
  | largeUtf8 (value : String)
  | date32 (days : Int)
  | binary (bytes : List UInt8)
  | list (item : DataType) (values : List Scalar)

namespace Scalar

/-- The type of a constant. -/
def type : Scalar → DataType
  | null type => type
  | boolean _ => .boolean
  | integer kind _ => .integer kind
  | float32 _ => .float32
  | float64 _ => .float64
  | utf8 _ => .utf8
  | largeUtf8 _ => .largeUtf8
  | date32 _ => .date32
  | binary _ => .binary
  | list item _ => .list item

mutual
/-- A constant as text. Text is shown without quotes, lists without brackets. -/
def text : Scalar → String
  | null _ => "NULL"
  | boolean value => if value then "true" else "false"
  | integer _ value => value.repr
  | float32 bits => Decimal.single.text bits.toNat
  | float64 bits => Decimal.double.text bits.toNat
  | utf8 value => value
  | largeUtf8 value => value
  | date32 days => days.repr
  | binary bytes => ",".intercalate (bytes.map fun byte => byte.toNat.repr)
  | list _ values => ",".intercalate (texts values)

def texts : List Scalar → List String
  | [] => []
  | value :: values => value.text :: texts values
end

mutual
/-- Equality of constants, by structure. -/
def same : Scalar → Scalar → Bool
  | null s, null t => s = t
  | boolean s, boolean t => s = t
  | integer j s, integer k t => j = k && s = t
  | float32 s, float32 t => s = t
  | float64 s, float64 t => s = t
  | utf8 s, utf8 t => s = t
  | largeUtf8 s, largeUtf8 t => s = t
  | date32 s, date32 t => s = t
  | binary s, binary t => s = t
  | list j s, list k t => j = k && sameList s t
  | _, _ => false

def sameList : List Scalar → List Scalar → Bool
  | [], [] => true
  | a :: as, b :: bs => same a b && sameList as bs
  | _, _ => false
end

mutual
theorem same_iff (a b : Scalar) : same a b = true ↔ a = b := by
  cases a with
  | list j s => cases b <;> simp [same, sameList_iff s]
  | _ => cases b <;> simp [same]

theorem sameList_iff (as bs : List Scalar) : sameList as bs = true ↔ as = bs := by
  cases as with
  | nil => cases bs <;> simp [sameList]
  | cons a as => cases bs <;> simp [sameList, same_iff a, sameList_iff as]
end

instance : DecidableEq Scalar := fun a b => decidable_of_iff (same a b = true) (same_iff a b)

end Scalar

end QueryOptimizer
