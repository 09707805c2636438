/-
# What paths are written in

The names of a file system are bytes, and most of them are text, but they need not be.  A path is
written in letters: characters, and runs of bytes that no character starts with or that break off
within one, as a decoder of UTF-8 cuts them (`Letter`).  Which runs a decoder makes is left open: what
is proved of written paths holds of all of them.

A run is shown as one replacement character, so that the text of a path (`WrittenPath.shown`) may
stand for another path, or for several of them: only a path that is text (`WrittenPath.IsText`) is
told by what is shown of it.

Texts are written paths of characters only (`WrittenPath.ofText`).  The order of names and the sizes
that the system limits are those of the bytes.
-/

namespace Tsconfig

/-- A letter of a written path: a character, or a run of bytes that are none. -/
inductive Letter
  | char (c : Char)
  | stray (byte : UInt8) (more : List UInt8)
  deriving DecidableEq

namespace Letter

instance : Coe Char Letter := ⟨.char⟩

/-- The character that stands for bytes that are none. -/
def replacement : Char := '\uFFFD'

/-- The character that is shown for a letter. -/
def shown : Letter → Char
  | .char c => c
  | .stray _ _ => replacement

/-- The bytes of a letter. -/
def bytes : Letter → List UInt8
  | .char c => String.utf8EncodeChar c
  | .stray byte more => byte :: more

end Letter

/-- A path as it is written, or a name of one. -/
@[ext] structure WrittenPath where
  ofList ::
  toList : List Letter
  deriving DecidableEq

namespace WrittenPath

/-- A text as a path. -/
def ofText (text : String) : WrittenPath := ⟨text.toList.map .char⟩

instance : Coe String WrittenPath := ⟨ofText⟩

instance : Inhabited WrittenPath := ⟨""⟩

/-- One after the other. -/
def append (a b : WrittenPath) : WrittenPath := ⟨a.toList ++ b.toList⟩

instance : Append WrittenPath := ⟨append⟩

/-- A path as it is shown. -/
def shown (p : WrittenPath) : String := String.ofList (p.toList.map Letter.shown)

/-- Nothing is lost where the path is shown: it is UTF-8. -/
def IsText (p : WrittenPath) : Prop := ofText p.shown = p

instance (p : WrittenPath) : Decidable p.IsText := inferInstanceAs (Decidable (_ = _))

/-- The bytes of a path. -/
def bytes (p : WrittenPath) : List UInt8 := p.toList.flatMap Letter.bytes

/-- How many bytes a path has. -/
def size (p : WrittenPath) : Nat := p.bytes.length

variable {a b c : WrittenPath}

@[simp] theorem toList_ofList (letters : List Letter) : (ofList letters).toList = letters := rfl

@[simp] theorem ofList_toList (p : WrittenPath) : ofList p.toList = p := rfl

@[simp] theorem toList_append (a b : WrittenPath) : (a ++ b).toList = a.toList ++ b.toList := rfl

@[simp] theorem toList_ofText (text : String) : (ofText text).toList = text.toList.map .char := rfl

theorem toList_inj : a.toList = b.toList ↔ a = b := WrittenPath.ext_iff.symm

@[simp] theorem toList_eq_nil_iff : a.toList = [] ↔ a = "" := by
  rw [← toList_inj]
  rfl

theorem append_assoc (a b c : WrittenPath) : a ++ b ++ c = a ++ (b ++ c) := by
  rw [← toList_inj]
  simp

@[simp] theorem empty_append (a : WrittenPath) : "" ++ a = a := rfl

@[simp] theorem append_empty (a : WrittenPath) : a ++ "" = a := by
  rw [← toList_inj]
  simp

@[simp] theorem char_mem_ofText {c : Char} {text : String} :
    .char c ∈ (ofText text).toList ↔ c ∈ text.toList := by
  simp

@[simp] theorem head?_ofText {c : Char} {text : String} :
    (ofText text).toList.head? = some (.char c) ↔ text.toList.head? = some c := by
  simp

theorem ofText_append (x y : String) : ofText (x ++ y) = ofText x ++ ofText y := by
  rw [← toList_inj]
  simp

@[simp] theorem shown_ofText (text : String) : (ofText text).shown = text := by
  simp [shown, Function.comp_def, Letter.shown]

theorem shown_append (a b : WrittenPath) : (a ++ b).shown = a.shown ++ b.shown := by
  rw [← String.toList_inj]
  simp [shown]

@[simp] theorem size_append (a b : WrittenPath) : (a ++ b).size = a.size + b.size := by
  simp [size, bytes]

@[simp] theorem ofText_inj {x y : String} : ofText x = ofText y ↔ x = y := by
  constructor
  · intro h
    rw [← shown_ofText x, h, shown_ofText]
  · rintro rfl
    rfl

@[simp] theorem isText_ofText (text : String) : (ofText text).IsText := by
  rw [IsText, shown_ofText]

/-- A path is text just when all its letters are characters. -/
theorem isText_iff : a.IsText ↔ ∀ l ∈ a.toList, l = .char l.shown := by
  rw [IsText, ← toList_inj, toList_ofText, shown, String.toList_ofList, List.map_map]
  conv => lhs; rhs; rw [← List.map_id a.toList]
  rw [List.map_inj_left]
  simp [eq_comm]

/-- Texts are told by what is shown of them. -/
theorem shown_inj (ha : a.IsText) (hb : b.IsText) : a.shown = b.shown ↔ a = b := by
  constructor
  · intro h
    rw [← ha, ← hb, h]
  · rintro rfl
    rfl

theorem isText_append : (a ++ b).IsText ↔ a.IsText ∧ b.IsText := by
  simp only [isText_iff, toList_append, List.forall_mem_append]

end WrittenPath

end Tsconfig
