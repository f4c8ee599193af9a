/-!
# Primer.Name — names that carry the block they were declared in.

Two blocks may declare the same name, so storage is keyed by an id: the names of the enclosing
blocks and the declared name, joined by a separator that no written name contains.  A parameter
keeps its bare name as its id.
-/

namespace Primer.Name

/-- Stands between the segments of an id. -/
def separator : Char := '^'

/-- The id of `name` inside the block `scope`. -/
def qualify (scope name : String) : String :=
  scope ++ separator.toString ++ name

/-- The last segment: what stands after the last separator, or everything. -/
def lastSegment (cs : List Char) : List Char :=
  (cs.reverse.takeWhile (· != separator)).reverse

/-- The name as it was written. -/
def bare (id : String) : String :=
  String.ofList (lastSegment id.toList)

/-- The id names a variable of some block and not a parameter. -/
def isQualified (id : String) : Bool :=
  id.toList.contains separator

/-! ## An id and its parts -/

theorem lastSegment_append (scope name : List Char) (h : separator ∉ name) :
    lastSegment (scope ++ separator :: name) = name := by
  have hr : ∀ c ∈ name.reverse, (c != separator) = true := by
    intro c hc
    simp only [bne_iff_ne, ne_eq]
    rintro rfl
    exact h (List.mem_reverse.1 hc)
  unfold lastSegment
  rw [List.reverse_append, List.reverse_cons, List.append_assoc,
    List.takeWhile_append_of_pos hr]
  simp

theorem bare_qualify (scope name : String) (h : separator ∉ name.toList) :
    bare (qualify scope name) = name := by
  simp [bare, qualify, Char.toString, lastSegment_append, h]

theorem isQualified_qualify (scope name : String) : isQualified (qualify scope name) = true := by
  simp [isQualified, qualify, Char.toString]

end Primer.Name
