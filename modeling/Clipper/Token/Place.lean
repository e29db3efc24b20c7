/-!
Places in a source text: a byte offset with the line and column it falls on.
-/

namespace Clipper

/-- Lines and columns count from one. -/
structure Place where
  offset : Nat
  line : Nat
  column : Nat
  deriving DecidableEq, Repr

namespace Place

def start : Place := ⟨0, 1, 1⟩

/-- The place behind a character. -/
def step (p : Place) (c : Char) : Place :=
  if c = '\n' then ⟨p.offset + c.utf8Size, p.line + 1, 1⟩
  else ⟨p.offset + c.utf8Size, p.line, p.column + 1⟩

/-- The place behind a text. -/
def past (p : Place) (cs : List Char) : Place := cs.foldl step p

@[simp] theorem past_nil (p : Place) : p.past [] = p := rfl

@[simp] theorem past_cons (p : Place) (c : Char) (cs : List Char) :
    p.past (c :: cs) = (p.step c).past cs := rfl

theorem past_append (p : Place) (cs ds : List Char) :
    p.past (cs ++ ds) = (p.past cs).past ds := by
  simp [past]

/-- The number of bytes of a text in its UTF-8 form. -/
def byteSize : List Char → Nat
  | [] => 0
  | c :: cs => c.utf8Size + byteSize cs

theorem byteSize_append (cs ds : List Char) :
    byteSize (cs ++ ds) = byteSize cs + byteSize ds := by
  induction cs with
  | nil => simp [byteSize]
  | cons c cs ih => simp [byteSize, ih, Nat.add_assoc]

theorem byteSize_toList (s : String) : byteSize s.toList = s.utf8ByteSize := by
  have hlist : ∀ cs : List Char, byteSize cs = (String.ofList cs).utf8ByteSize := by
    intro cs
    induction cs with
    | nil => rfl
    | cons c cs ih => simp [byteSize, ih, String.ofList_cons]
  rw [hlist, String.ofList_toList]

theorem past_offset (p : Place) (cs : List Char) :
    (p.past cs).offset = p.offset + byteSize cs := by
  induction cs generalizing p with
  | nil => rfl
  | cons c cs ih =>
      rw [past_cons, ih]
      by_cases h : c = '\n' <;> simp [step, byteSize, h, Nat.add_assoc]

theorem past_line (p : Place) (cs : List Char) :
    (p.past cs).line = p.line + cs.count '\n' := by
  induction cs generalizing p with
  | nil => simp
  | cons c cs ih =>
      rw [past_cons, ih]
      by_cases h : c = '\n'
      · simp [step, h]
        omega
      · simp [step, h]

end Place

end Clipper
