import GrammarTrees.Proofs.TreeText.Texts
import GrammarTrees.TreeText.Printer

/-! A written tree cut into the tokens it was written as. The scanner cuts it at the same places,
since every piece is followed by a character that ends it. -/

namespace GrammarTrees.TreeText

abbrev Piece := Token × List Char

def charsOf (ps : List Piece) : List Char := ps.flatMap Prod.snd

def textToken (cs : List Char) : Token :=
  match cs.head? with
  | some '\'' => .quoted
  | some '\x7b' => .braced
  | _ => .word

def textPieces (l : Label) : List Piece :=
  if l.text = l.kind.name then [] else [(.colon, [':']), (textToken l.text.toList, l.text.toList)]

def nodePieces (l : Label) : List Piece := (.word, l.kind.name.toList) :: textPieces l

mutual

def pieces : Tree Label → List Piece
  | .node l ts =>
    if ts.isEmpty then nodePieces l
    else (.opening, ['(']) :: (nodePieces l ++ (childPieces ts ++ [(.closing, [')'])]))

def childPieces : List (Tree Label) → List Piece
  | [] => []
  | t :: ts => (.gap, [' ']) :: (pieces t ++ childPieces ts)

end

variable {c : Char} {cs rest : List Char} {p : Piece} {ps qs : List Piece} {l : Label}

theorem charsOf_append (ps qs : List Piece) : charsOf (ps ++ qs) = charsOf ps ++ charsOf qs :=
  List.flatMap_append

theorem charsOf_cons (p : Piece) (ps : List Piece) : charsOf (p :: ps) = p.2 ++ charsOf ps :=
  List.flatMap_cons

theorem charsOf_nodePieces (l : Label) : charsOf (nodePieces l) = nodeChars l := by
  rw [nodePieces, textPieces, nodeChars]
  split <;> simp [charsOf]

mutual

theorem charsOf_pieces : (t : Tree Label) → charsOf (pieces t) = chars t
  | .node l ts => by
    rw [pieces, chars]
    split
    · exact charsOf_nodePieces l
    · simp only [charsOf_cons, charsOf_append, charsOf_nodePieces, charsOf_childPieces ts]
      rfl

theorem charsOf_childPieces : (ts : List (Tree Label)) → charsOf (childPieces ts) = childChars ts
  | [] => rfl
  | t :: ts => by
    rw [childPieces, childChars, charsOf_cons, charsOf_append, charsOf_pieces t,
      charsOf_childPieces ts]
    rfl

end

/-! ### Where the scanner cuts -/

/-- The scanner finds the piece in front of `rest`. -/
def Found (p : Piece) (rest : List Char) : Prop :=
  ∃ c cs, p.2 = c :: cs ∧ scan c (cs ++ rest) = ⟨some p.1, cs.length⟩

/-- The scanner finds the pieces one after the other in front of `rest`. -/
def Cut : List Piece → (rest : List Char) → Prop
  | [], _ => True
  | p :: ps, rest => Found p (charsOf ps ++ rest) ∧ Cut ps rest

theorem cut_append : Cut (ps ++ qs) rest ↔ Cut ps (charsOf qs ++ rest) ∧ Cut qs rest := by
  induction ps with
  | nil => simp [Cut]
  | cons p ps ih =>
    rw [List.cons_append, Cut, Cut, ih, charsOf_append, List.append_assoc, and_assoc]

def piece (l : Lexeme Token) : Option Token × List Char := (l.token, l.chars)

theorem piece_readFrom (h : Cut ps []) (offset : Nat) :
    (Lexeme.readFrom scan (fun _ => false) offset 0 (charsOf ps)).map piece =
      ps.map fun p => (some p.1, p.2) := by
  induction ps generalizing offset with
  | nil => rfl
  | cons p ps ih =>
    obtain ⟨⟨c, cs, hp, hscan⟩, hps⟩ := h
    rw [List.append_nil] at hscan
    rw [charsOf_cons, hp, List.cons_append, Lexeme.readFrom, hscan]
    simp only [Bool.false_eq_true, if_false, List.map_cons, Lexeme.readFrom_skip, ih hps]
    simp [piece, hp]

/-- The lexemes of characters that are cut into pieces are those pieces. -/
theorem piece_readAll (h : Cut ps []) :
    (Lexeme.readAll scan (charsOf ps)).map piece = ps.map fun p => (some p.1, p.2) :=
  piece_readFrom h 0

/-! ### Written trees -/

/-- Nothing follows, or something that ends a node in the notation. -/
def Delimits (rest : List Char) : Prop := ∀ c ∈ rest.head?, c = ' ' ∨ c = ')' ∨ c = ':'

theorem Delimits.endsWord (h : Delimits rest) : EndsWord rest := by
  intro c hc
  rcases h c hc with rfl | rfl | rfl <;> decide

theorem Delimits.head?_ne (h : Delimits rest) : rest.head? ≠ some '?' := by
  intro hq
  rcases h '?' hq with hc | hc | hc <;> revert hc <;> decide

theorem isWord_name (k : Kind) : IsWord k.name.toList := by
  have hne : k.name.toList.isEmpty = false := by
    cases k <;> rfl
  have hall : k.name.toList.all isWordChar = true := by
    cases k <;> rfl
  exact ⟨List.isEmpty_eq_false_iff.mp hne, List.all_eq_true.mp hall⟩

theorem found_word (h : IsWord cs) (hr : Delimits rest) : Found (.word, cs) rest := by
  obtain ⟨c, ds, rfl⟩ := List.exists_cons_of_ne_nil h.1
  exact ⟨c, ds, rfl, scan_word h hr.endsWord⟩

theorem textToken_of_isWord (h : IsWord cs) : textToken cs = .word := by
  obtain ⟨c, ds, rfl⟩ := List.exists_cons_of_ne_nil h.1
  obtain ⟨-, -, -, -, hq, hb, -⟩ := isWordChar_eq_true_iff.mp (h.2 c (by simp))
  simp [textToken, hq, hb]

theorem found_text (h : IsWord cs ∨ IsQuoted cs ∨ IsBraced cs) (hr : Delimits rest) :
    Found (textToken cs, cs) rest := by
  rcases h with h | ⟨tail, rfl, h⟩ | h
  · rw [textToken_of_isWord h]
    exact found_word h hr
  · exact ⟨'\'', tail, rfl, scan_quoted h rest⟩
  · obtain ⟨ds, rfl⟩ : ∃ ds, cs = '\x7b' :: ds := by
      rcases h with h | ⟨block, h, rfl⟩
      · exact List.head?_eq_some_iff.mp h.opens
      · obtain ⟨ds, rfl⟩ := List.head?_eq_some_iff.mp h.opens
        exact ⟨_, rfl⟩
    exact ⟨'\x7b', ds, rfl, scan_braced h hr.head?_ne⟩

theorem cut_nodePieces (h : l.Writable) (hr : Delimits rest) : Cut (nodePieces l) rest := by
  rw [nodePieces, textPieces]
  split
  · exact ⟨found_word (isWord_name l.kind) hr, trivial⟩
  · rename_i hne
    refine ⟨found_word (isWord_name l.kind) (by simp [Delimits, charsOf]), ⟨_, _, rfl, rfl⟩, ?_,
      trivial⟩
    exact found_text (h.resolve_left hne) hr

/-- A written node starts with a character that is no gap. -/
theorem isGap_head_nodeChars (l : Label) : ∀ c ∈ (nodeChars l).head?, isGap c = false := by
  intro c hc
  have hword := isWord_name l.kind
  obtain ⟨d, ds, hname⟩ := List.exists_cons_of_ne_nil hword.1
  have hd := hword.2 d (by simp [hname])
  have hcd : c = d := by
    rw [nodeChars] at hc
    split at hc <;> simpa [hname, eq_comm] using hc
  have hblank := (isWordChar_eq_true_iff.mp hd).1
  rw [hcd, Bool.eq_false_iff]
  intro hgap
  rw [isBlank_of_isGap hgap] at hblank
  exact Bool.noConfusion hblank

theorem isGap_head_chars (t : Tree Label) (rest : List Char) :
    ∀ c ∈ (chars t ++ rest).head?, isGap c = false := by
  cases t with
  | node l ts =>
    rw [chars]
    split
    · intro c hc
      refine isGap_head_nodeChars l c ?_
      have hne : nodeChars l ≠ [] := by
        rw [nodeChars]
        split <;> simp [(isWord_name l.kind).1]
      rwa [List.head?_append_of_ne_nil _ hne] at hc
    · intro c hc
      obtain rfl : '(' = c := by simpa using hc
      decide

theorem found_gap (h : ∀ c ∈ rest.head?, isGap c = false) : Found (.gap, [' ']) rest := by
  refine ⟨' ', [], rfl, ?_⟩
  have hrun : rest.takeWhile isGap = [] := by
    cases rest with
    | nil => rfl
    | cons c cs => simp [h c (by simp)]
  change Scan.run Token.gap isGap rest = _
  rw [Scan.run, hrun]

theorem delimits_childPieces (ts : List (Tree Label)) (h : Delimits rest) :
    Delimits (charsOf (childPieces ts) ++ rest) := by
  cases ts with
  | nil => exact h
  | cons t ts => simp [childPieces, charsOf, Delimits]

mutual

/-- The scanner cuts a tree with writable texts as it was written. -/
theorem cut_pieces {rest : List Char} (hr : Delimits rest) :
    (t : Tree Label) → (∀ l ∈ t.preorder, l.Writable) → Cut (pieces t) rest
  | .node l ts, h => by
    rw [Tree.preorder_node, List.forall_mem_cons] at h
    rw [pieces]
    split
    · exact cut_nodePieces h.1 hr
    · have hclose : Delimits (charsOf [(.closing, [')'])] ++ rest) := by simp [charsOf, Delimits]
      refine ⟨⟨_, _, rfl, rfl⟩, cut_append.mpr ⟨cut_nodePieces h.1 ?_, cut_append.mpr ⟨?_, ?_⟩⟩⟩
      · rw [charsOf_append, List.append_assoc]
        exact delimits_childPieces ts hclose
      · exact cut_childPieces hclose ts fun t ht l hl =>
          h.2 l (List.mem_flatMap.mpr ⟨t, ht, hl⟩)
      · exact ⟨⟨_, _, rfl, rfl⟩, trivial⟩

theorem cut_childPieces {rest : List Char} (hr : Delimits rest) :
    (ts : List (Tree Label)) → (∀ t ∈ ts, ∀ l ∈ t.preorder, l.Writable) →
      Cut (childPieces ts) rest
  | [], _ => trivial
  | t :: ts, h => by
    rw [List.forall_mem_cons] at h
    refine ⟨?_, cut_append.mpr ⟨cut_pieces (delimits_childPieces ts hr) t h.1,
      cut_childPieces hr ts h.2⟩⟩
    rw [charsOf_append, charsOf_pieces, List.append_assoc]
    exact found_gap (isGap_head_chars t _)

end

end GrammarTrees.TreeText
