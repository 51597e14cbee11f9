import Mathlib.Data.List.Nodup
import Mathlib.Data.List.Range
import Formulary.Proofs.Expr.RoundTrip

/-!
# The nodes of a formula

A node of a tree stands for tokens of its own, and a token for characters of its own, so
that the length of a text bounds the tokens and these the nodes. What compiling a formula
knows of its tree holds of every node.

* `Expr.nodes`: the trees in a tree, one for each node.
* `Expr.Writable.of_mem`: the nodes of a formula's tree are like the tree.
* `Derives.nodeCount_le`: no more nodes than tokens, by induction on the derivation.
* `Segmentation.length_le`: no more tokens than characters.
-/

namespace Formulary

namespace Expr

/-- The trees in a tree, the whole of it first: one for each node. -/
def nodes : Expr → List Expr
  | literal d => [literal d]
  | var name slot => [var name slot]
  | negate e => negate e :: e.nodes
  | binary op l r => binary op l r :: (l.nodes ++ r.nodes)
  | conditional c t e => conditional c t e :: (c.nodes ++ (t.nodes ++ e.nodes))

@[simp] theorem length_nodes (e : Expr) : e.nodes.length = e.nodeCount := by
  induction e with
  | literal => rfl
  | var => rfl
  | negate e ih => simp [nodes, nodeCount, ih]
  | binary op l r ihl ihr => simp [nodes, nodeCount, ihl, ihr]
  | conditional c t e ihc iht ihe => simp [nodes, nodeCount, ihc, iht, ihe, Nat.add_assoc]

/-- **The trees in the tree of a formula** are like it: no literal has a sign, and every
variable is in the slot of its name. -/
theorem Writable.of_mem {names : List String} {e x : Expr} (h : e.Writable names)
    (hx : x ∈ e.nodes) : x.Writable names := by
  induction e with
  | literal | var =>
    obtain rfl := List.mem_singleton.1 hx
    exact h
  | negate e ih =>
    rcases List.mem_cons.1 hx with rfl | hx
    · exact h
    · exact ih h hx
  | binary op l r ihl ihr =>
    rcases List.mem_cons.1 hx with rfl | hx
    · exact h
    · rcases List.mem_append.1 hx with hx | hx
      · exact ihl h.1 hx
      · exact ihr h.2 hx
  | conditional c t e ihc iht ihe =>
    rcases List.mem_cons.1 hx with rfl | hx
    · exact h
    · rcases List.mem_append.1 hx with hx | hx
      · exact ihc h.1 hx
      · rcases List.mem_append.1 hx with hx | hx
        · exact iht h.2.1 hx
        · exact ihe h.2.2 hx

end Expr

variable {names : List String} {ts : List Token}

/-- **A tree has no more nodes than the tokens it is derived from.** Parentheses and colons
are tokens without a node. -/
theorem Derives.nodeCount_le {N : Nonterminal} {e : Expr} {n : Nat}
    (h : Derives (Denotes names) N ts e n) : e.nodeCount ≤ ts.length := by
  induction h with
  | plain _ ih | operand _ ih | unsigned _ ih => exact ih
  | conditional _ _ _ _ _ ihc iht ihe =>
    simp only [Expr.nodeCount, List.length_append, List.length_cons]
    omega
  | operator _ _ _ _ ihl ihr =>
    simp only [Expr.nodeCount, List.length_append, List.length_cons]
    omega
  | negation _ _ ih =>
    simp only [Expr.nodeCount, List.length_cons]
    omega
  | leaf h => cases h <;> exact Nat.le_refl _
  | group _ _ _ ih =>
    simp only [List.length_append, List.length_cons]
    omega

/-- **A text has no more tokens than characters**: each has a place of its own. -/
theorem Segmentation.length_le {cs : List Char} {start : Nat} (h : Segmentation names cs start ts) :
    ts.length ≤ cs.length := by
  have hnodup : (ts.map Token.position).Nodup := by
    rw [List.nodup_iff_pairwise_ne, List.pairwise_map]
    exact h.ordered.imp fun htu => Nat.ne_of_lt htu.1
  have hsubset : ts.map Token.position ⊆ List.range cs.length := by
    intro p hp
    obtain ⟨t, ht, rfl⟩ := List.mem_map.1 hp
    obtain ⟨c, hc, -⟩ := h.getElem?_position ht
    exact List.mem_range.2 (List.getElem?_eq_some_iff.1 hc).1
  simpa using (hnodup.subperm hsubset).length_le

end Formulary
