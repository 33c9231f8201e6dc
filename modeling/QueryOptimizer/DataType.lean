import QueryOptimizer.Text.Quoted

/-! # Types of values -/

namespace QueryOptimizer

/-- The widths of integers. -/
inductive IntegerKind where
  | int8
  | int16
  | int32
  | int64
  | uint8
  | uint16
  | uint32
  | uint64
  deriving DecidableEq, Repr

/-- The type of a value. -/
inductive DataType where
  | null
  | boolean
  | integer (kind : IntegerKind)
  | float32
  | float64
  | utf8
  | largeUtf8
  | binary
  | date32
  /-- Nanoseconds since the epoch, in a time zone or none. -/
  | timestamp (zone : Option String)
  | list (item : DataType)
  deriving DecidableEq, Repr

namespace IntegerKind

def all : List IntegerKind := [int8, int16, int32, int64, uint8, uint16, uint32, uint64]

def name : IntegerKind → String
  | int8 => "Int8"
  | int16 => "Int16"
  | int32 => "Int32"
  | int64 => "Int64"
  | uint8 => "UInt8"
  | uint16 => "UInt16"
  | uint32 => "UInt32"
  | uint64 => "UInt64"

end IntegerKind

namespace DataType

/-- A type as text. The items of a list are a nullable field called `item`. -/
def text : DataType → String
  | null => "Null"
  | boolean => "Boolean"
  | integer kind => kind.name
  | float32 => "Float32"
  | float64 => "Float64"
  | utf8 => "Utf8"
  | largeUtf8 => "LargeUtf8"
  | binary => "Binary"
  | date32 => "Date32"
  | timestamp none => "Timestamp(Nanosecond, None)"
  | timestamp (some zone) => "Timestamp(Nanosecond, Some(" ++ Text.quoted zone ++ "))"
  | list item =>
      "List(Field \x7b name: \"item\", data_type: " ++ item.text
        ++ ", nullable: true, dict_id: 0, dict_is_ordered: false, metadata: \x7b\x7d \x7d)"

/-- The types that are given by their name alone. -/
def simple : List DataType :=
  [null, boolean, float32, float64, utf8, largeUtf8, binary, date32]
    ++ IntegerKind.all.map integer

def ofName? (name : String) : Option DataType := simple.find? fun type => type.text = name

end DataType

end QueryOptimizer
