/-!
# Integer types

The eight integer types, each the range of a two's complement or unsigned word.
`v ∈ t` says that `v` lies in the range of `t`, and `t.wrap v` keeps the low
bits of `v`.
-/

namespace ProgramSafety

inductive IntType where
  | i8 | i16 | i32 | i64 | u8 | u16 | u32 | u64
deriving DecidableEq, Repr

namespace IntType

def all : List IntType := [i8, i16, i32, i64, u8, u16, u32, u64]

theorem mem_all (t : IntType) : t ∈ all := by
  cases t <;> decide

def bits : IntType → Nat
  | i8 | u8 => 8
  | i16 | u16 => 16
  | i32 | u32 => 32
  | i64 | u64 => 64

def signed : IntType → Bool
  | i8 | i16 | i32 | i64 => true
  | u8 | u16 | u32 | u64 => false

def min (t : IntType) : Int := if t.signed then -Int.pow 2 (t.bits - 1) else 0

def max (t : IntType) : Int :=
  if t.signed then Int.pow 2 (t.bits - 1) - 1 else Int.pow 2 t.bits - 1

def name : IntType → String
  | i8 => "i8"
  | i16 => "i16"
  | i32 => "i32"
  | i64 => "i64"
  | u8 => "u8"
  | u16 => "u16"
  | u32 => "u32"
  | u64 => "u64"

/-- The type a name stands for. The pointer-sized names are 64 bits wide. -/
def ofName? : String → Option IntType
  | "i8" => some i8
  | "i16" => some i16
  | "i32" => some i32
  | "i64" => some i64
  | "isize" => some i64
  | "u8" => some u8
  | "u16" => some u16
  | "u32" => some u32
  | "u64" => some u64
  | "usize" => some u64
  | _ => none

theorem ofName?_name (t : IntType) : ofName? t.name = some t := by
  cases t <;> rfl

instance : Membership Int IntType where
  mem t v := t.min ≤ v ∧ v ≤ t.max

theorem mem_iff {t : IntType} {v : Int} : v ∈ t ↔ t.min ≤ v ∧ v ≤ t.max := Iff.rfl

instance (t : IntType) (v : Int) : Decidable (v ∈ t) :=
  inferInstanceAs (Decidable (_ ∧ _))

def Covers (t s : IntType) : Prop := t.min ≤ s.min ∧ s.max ≤ t.max

instance (t s : IntType) : Decidable (Covers t s) := inferInstanceAs (Decidable (_ ∧ _))

/-- The value of the type with the same low bits as `v`. -/
def wrap (t : IntType) (v : Int) : Int :=
  if t.signed then v.bmod (Nat.pow 2 t.bits) else v % Int.pow 2 t.bits

/-- The value of the type nearest to `v`. -/
def clamp (t : IntType) (v : Int) : Int :=
  if v < t.min then t.min else if t.max < v then t.max else v

theorem clamp_of_mem {t : IntType} {v : Int} (h : v ∈ t) : t.clamp v = v := by
  obtain ⟨hlo, hhi⟩ := h
  simp [clamp, Int.not_lt.mpr hlo, Int.not_lt.mpr hhi]

end IntType

end ProgramSafety
