/-
Words that a driver reads, changes in some bits and writes back.

`Sets fields old new` says that `new` has the bits that `fields` lists,
the first entry for a bit counting, and all others from `old`. Setting and
clearing a bit put an entry in front of the list.

# How it is used

A driver changes a register with a sequence of read-modify-write
operations, and what is expected of it is a table: these bits have these
values, all others stay. With `Sets` the sequence and the table are the
same kind of thing. Each operation is one entry, a sequence is put
together with `trans`, which puts the later entries in front, and the
result is read at a bit with `bit`. The order of entries for different
bits does not matter (`congr`).
-/
import ProjectsLibs.Lib.Bits

namespace ProjectsLibs.Lib

/-- The bits listed are as listed, the others as they were. -/
def Sets (fields : List (Nat × Bool)) (old new : UInt32) : Prop :=
  ∀ b < 32, testBit new b = (fields.lookup b).getD (testBit old b)

namespace Sets

variable {fields fields' : List (Nat × Bool)} {old new : UInt32}

theorem refl (w : UInt32) : Sets [] w w := fun _ _ => rfl

/-- A bit is set. -/
theorem or_mask (h : Sets fields old new) {a : Nat} (ha : a < 32) :
    Sets ((a, true) :: fields) old (new ||| mask a) := by
  intro b hb
  rw [testBit_or_mask _ ha, h b hb]
  by_cases hab : b = a
  · simp [hab]
  · have hne : (b == a) = false := beq_eq_false_iff_ne.2 hab
    rw [List.lookup_cons, hne, decide_eq_false (Ne.symm hab), Bool.or_false]

/-- A bit is cleared. -/
theorem and_not_mask (h : Sets fields old new) {a : Nat} (ha : a < 32) :
    Sets ((a, false) :: fields) old (new &&& ~~~mask a) := by
  intro b hb
  rw [testBit_and_not_mask _ ha hb, h b hb]
  by_cases hab : b = a
  · simp [hab]
  · have hne : (b == a) = false := beq_eq_false_iff_ne.2 hab
    rw [List.lookup_cons, hne, decide_eq_true (Ne.symm hab), Bool.and_true]

/-- One change after another. -/
theorem trans {mid : UInt32} (h : Sets fields old mid)
    (h' : Sets fields' mid new) : Sets (fields' ++ fields) old new := by
  intro b hb
  rw [h' b hb, h b hb, List.lookup_append]
  cases fields'.lookup b with
  | none => rfl
  | some v => rfl

/-- Lists with the same entries say the same. -/
theorem congr (h : Sets fields old new)
    (hsame : ∀ b < 32, fields'.lookup b = fields.lookup b) :
    Sets fields' old new := by
  intro b hb
  rw [hsame b hb]
  exact h b hb

/-- A bit that is listed. -/
theorem bit (h : Sets fields old new) {a : Nat} {v : Bool} (ha : a < 32)
    (hv : fields.lookup a = some v) : testBit new a = v := by
  rw [h a ha, hv]
  rfl

end Sets

end ProjectsLibs.Lib
