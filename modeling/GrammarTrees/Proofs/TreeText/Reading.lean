import GrammarTrees.Proofs.TreeText.Grammar
import GrammarTrees.Proofs.TreeText.Pieces

/-! Reading a written tree. The pieces of a tree are a node of the grammar, whose tree has the same
shape with the same kinds and texts. -/

namespace GrammarTrees

/-- The kind and the text of a label, and nothing else. -/
def Label.bare (l : Label) : Label := .make l.kind l.text

namespace TreeText

variable {l : Label} {xs : List (Lexeme Token)}

/-- The pieces that the reader gets to see, as the lexemes that they are read as. -/
def seen (ps : List Piece) : List (Option Token × List Char) :=
  (ps.filter (·.1 ≠ .gap)).map fun p => (some p.1, p.2)

theorem seen_append (ps qs : List Piece) : seen (ps ++ qs) = seen ps ++ seen qs := by
  simp [seen]

theorem seen_cons {p : Piece} (h : p.1 ≠ .gap) (ps : List Piece) :
    seen (p :: ps) = (some p.1, p.2) :: seen ps := by
  simp [seen, h]

theorem seen_gap (cs : List Char) (ps : List Piece) : seen ((.gap, cs) :: ps) = seen ps := by
  simp [seen]

theorem text_eq {s : String} {x : Lexeme Token} (h : x.chars = s.toList) : x.text = s := by
  rw [Lexeme.text, h, String.ofList_toList]

theorem textToken_eq (cs : List Char) :
    textToken cs = .word ∨ textToken cs = .quoted ∨ textToken cs = .braced := by
  rw [textToken]
  split <;> simp

theorem isText_of_textPieces (hxs : xs.map piece = seen (textPieces l)) :
    IsText l.kind xs l.text := by
  rw [textPieces] at hxs
  split at hxs
  · rename_i htext
    obtain rfl : xs = [] := List.map_eq_nil_iff.mp hxs
    rw [htext]
    exact .absent
  · have htoken := textToken_eq l.text.toList
    rw [seen_cons (by simp), seen_cons (by rcases htoken with h | h | h <;> simp [h])] at hxs
    obtain ⟨colon, xs, rfl, hcolon, hxs⟩ := List.map_eq_cons_iff.mp hxs
    obtain ⟨x, xs, rfl, hx, hxs⟩ := List.map_eq_cons_iff.mp hxs
    obtain rfl : xs = [] := List.map_eq_nil_iff.mp hxs
    obtain ⟨hcolon : colon.token = some .colon, -⟩ := Prod.mk.inj hcolon
    obtain ⟨hx : x.token = some (textToken l.text.toList), hchars⟩ := Prod.mk.inj hx
    rw [← text_eq hchars]
    refine .present hcolon ?_
    rw [hx]
    simpa using htoken

theorem isLeaf_of_nodePieces (hxs : xs.map piece = seen (nodePieces l)) : IsLeaf xs l.bare := by
  rw [nodePieces, seen_cons (by simp)] at hxs
  obtain ⟨x, xs, rfl, hx, hxs⟩ := List.map_eq_cons_iff.mp hxs
  obtain ⟨hx : x.token = some .word, hchars⟩ := Prod.mk.inj hx
  rw [← List.append_nil xs]
  exact .mk hx (text_eq hchars) (isText_of_textPieces hxs) .absent

mutual

/-- The pieces of a tree are a node of the grammar. -/
theorem isNode_of_pieces : (t : Tree Label) → {xs : List (Lexeme Token)} →
    xs.map piece = seen (pieces t) → IsNode xs (t.map Label.bare)
  | .node l ts, xs, hxs => by
    rw [pieces] at hxs
    rw [Tree.map_node]
    split at hxs
    · rename_i hts
      obtain rfl := List.isEmpty_iff.mp hts
      exact .leaf (isLeaf_of_nodePieces hxs)
    · rw [seen_cons (by simp), seen_append, seen_append, seen_cons (by simp)] at hxs
      obtain ⟨opening, xs, rfl, hopening, hxs⟩ := List.map_eq_cons_iff.mp hxs
      obtain ⟨leaf, xs, rfl, hleaf, hxs⟩ := List.map_eq_append_iff.mp hxs
      obtain ⟨below, xs, rfl, hbelow, hxs⟩ := List.map_eq_append_iff.mp hxs
      obtain ⟨closing, xs, rfl, hclosing, hxs⟩ := List.map_eq_cons_iff.mp hxs
      obtain rfl : xs = [] := List.map_eq_nil_iff.mp hxs
      exact .parens (Prod.mk.inj hopening).1 (isLeaf_of_nodePieces hleaf)
        (areNodes_of_childPieces ts hbelow) (Prod.mk.inj hclosing).1

theorem areNodes_of_childPieces : (ts : List (Tree Label)) → {xs : List (Lexeme Token)} →
    xs.map piece = seen (childPieces ts) → AreNodes xs (ts.map (Tree.map Label.bare))
  | [], xs, hxs => by
    obtain rfl : xs = [] := List.map_eq_nil_iff.mp hxs
    exact .nil
  | t :: ts, xs, hxs => by
    rw [childPieces, seen_gap, seen_append] at hxs
    obtain ⟨first, others, rfl, hfirst, hothers⟩ := List.map_eq_append_iff.mp hxs
    exact .cons (isNode_of_pieces t hfirst) (areNodes_of_childPieces ts hothers)

end

theorem piece_filter_readAll {ps : List Piece} (h : Cut ps []) :
    ((Lexeme.readAll scan (charsOf ps)).filter (·.token ≠ some .gap)).map piece = seen ps := by
  have hfilter : (fun x : Lexeme Token => decide (x.token ≠ some .gap)) =
      (fun p : Option Token × List Char => decide (p.1 ≠ some .gap)) ∘ piece := rfl
  rw [hfilter, ← List.filter_map, piece_readAll h, List.filter_map, seen]
  congr 2
  funext p
  simp

/-- Reading what was written for a tree gives the tree back, with the kinds and the texts of its
labels. -/
theorem read_write {t : Tree Label} (h : ∀ l ∈ t.preorder, l.Writable) :
    read (write t) = .ok (t.map Label.bare) := by
  have hcut : Cut (pieces t) [] := cut_pieces (by simp [Delimits]) t h
  have hnone : (Lexeme.readAll scan (chars t)).find? (·.token.isNone) = none := by
    rw [List.find?_eq_none]
    intro x hx
    have hpiece := List.mem_map_of_mem (f := piece) hx
    rw [← charsOf_pieces, piece_readAll hcut] at hpiece
    obtain ⟨p, -, hp⟩ := List.mem_map.mp hpiece
    have htoken : some p.1 = x.token := congrArg Prod.fst hp
    simp [← htoken]
  have hread := readLexemes_of_isNode (isNode_of_pieces t (piece_filter_readAll hcut))
  rw [charsOf_pieces] at hread
  rw [read, write, String.toList_ofList]
  simp only [hnone, hread]

end TreeText

end GrammarTrees
