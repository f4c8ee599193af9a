import Primer.Proofs.Grammar.Readers
import Primer.Proofs.Tree.Layout

/-!
# Primer.Proofs.Tree.Spelling — a finished tree names what its text names.

Every name of a text is taken into one construct, and a construct is made before the constructs
under it.  So the names of the text are those of the nodes, node by node (`Program.names_eq`), and
what is said of the ids in a tree is said of the names that were written for them.

The names that a construct was spelled with come in the order of the text: those in front of its
body first.  `Forest.spelling` collects them over a forest, and `Token.names` over a text; an
induction over the rules of reading shows that the two lists agree.  Whoever knows where a token
stands in the text so knows at which node its name was read.
-/

namespace Primer

namespace Forest

/-- The names in all constructs, in the order in which they are laid out. -/
def spelling : Forest → List String
  | nil => []
  | cons c _ body slots rest =>
    c.spelling ++ (body.spelling ++ (slots.spelling ++ rest.spelling))

/-- The names of two forests in a row. -/
theorem spelling_append (f g : Forest) : (f.append g).spelling = f.spelling ++ g.spelling := by
  induction f with
  | nil => rfl
  | cons c line body slots rest _ _ ih => simp only [append, spelling, ih, List.append_assoc]

theorem spelling_leaf (c : Construct) (line : Nat) : (leaf c line).spelling = c.spelling := by
  simp only [leaf, spelling, List.append_nil]

theorem spelling_block (c : Construct) (line : Nat) (body : Forest) :
    (block c line body).spelling = c.spelling ++ body.spelling := by
  simp only [block, spelling, List.append_nil]

/-- The names of a forest are those of the nodes of its layout. -/
theorem flatMap_spelling_nodes (owner : Option NodeId) (linkage : Linkage) (start : Nat)
    (f : Forest) : (f.nodes owner linkage start).flatMap (·.construct.spelling) = f.spelling := by
  induction f generalizing owner linkage start with
  | nil => rfl
  | cons c line body slots rest ihb ihs ihr =>
    rw [nodes, List.flatMap_cons, List.flatMap_append, List.flatMap_append, ihb, ihs, ihr]
    rfl

/-- Further branches do not change what a conditional names itself. -/
theorem spelling_fill (slots : Forest) (start : Nat) (scope : String) (condition : Expr) :
    (slots.fill (.conditional scope condition [] none) start).spelling = condition.spelling := by
  obtain ⟨elseIfs, last, hfill⟩ := slots.exists_fill_eq start scope condition [] none
  rw [hfill]
  rfl

end Forest

/-- The names in a tree, node by node, as they are written. -/
def Tree.spelling (t : Tree) : List String := t.nodes.toList.flatMap (·.construct.spelling)

namespace Grammar

/-- What was read names what the tokens name that were taken. -/
theorem Reads.spells {role : Role} {d d' : Draft} {f : Forest} (h : Reads role d f d') :
    Token.Spells d.tokens f.spelling d'.tokens := by
  induction h with
  | declaration taken =>
    rw [Forest.spelling_leaf]
    exact taken.spelled
  | simple taken =>
    rw [Forest.spelling_leaf]
    exact taken.spelled
  | loop taken _ _ _ rest ih =>
    rw [Forest.spelling_block]
    exact taken.spelled.trans (ih.skips rest.spelled)
  | conditional taken _ _ _ _ rest ihb ihs =>
    rw [Forest.spelling, Forest.spelling_fill, Forest.spelling, List.append_nil]
    exact taken.spelled.trans (ihb.trans (ihs.skips rest.spelled))
  | elseIf taken _ _ _ _ _ ihb ihs =>
    rw [Forest.spelling, Forest.spelling, List.nil_append]
    exact taken.spelled.trans (ihb.trans ihs)
  | otherwise taken _ _ _ ih =>
    rw [Forest.spelling_block]
    exact taken.spelled.trans ih
  | routine taken _ _ _ _ _ _ rest _ ih =>
    rw [Forest.spelling_block]
    exact taken.spelled.trans (ih.skips rest.spelled)
  | done _ => exact .refl _
  | item _ _ _ ihf ihm =>
    rw [Draft.tokens_attached] at ihm
    rw [Forest.spelling_append]
    exact ihf.trans ihm

/-- The names of the text are those of the forest that was read. -/
theorem ReadsProgram.names_eq {tokens : List Lexeme} {f : Forest} {p : Program}
    (h : ReadsProgram tokens f p) (hplain : Token.AllPlain tokens) :
    Token.names tokens = f.spelling := by
  cases h with
  | @intro _ _ _ _ d₄ line entryLine name scope _ _ items body taken _ _ inside begun _ _ entered
      rest complete =>
    have hbody := entered.spells.skips rest.spelled
    have hall := taken.spelled.trans (inside.spells.trans (begun.spelled.trans hbody))
    rw [Forest.spelling, Forest.spelling_block, Forest.spelling, List.append_nil]
    refine (hall.names_eq hplain).trans ?_
    rw [complete]
    exact List.append_nil _

end Grammar

/-- The names of a text are those of the nodes that it was read as, in the same order. -/
theorem Program.names_eq {tokens : List Lexeme} {p : Program} (h : ofTokens tokens = .ok p)
    (hplain : Token.AllPlain tokens) : Token.names tokens = p.tree.spelling := by
  obtain ⟨f, hreads⟩ := ofTokens_reads h
  rw [Tree.spelling, hreads.nodes_eq.1, Forest.flatMap_spelling_nodes, hreads.names_eq hplain]

end Primer
