import GrammarTrees.Proofs.TreeText.Tokens
import GrammarTrees.TreeText.Reader

/-! The grammar of the tree notation, over its tokens without gaps. A node is a leaf, or a leaf and
nodes below it in parentheses; a leaf is the name of a kind, with a text and a position if there are
any. The reader reads exactly what the grammar derives, and gives the tree of the derivation. -/

namespace GrammarTrees.TreeText

/-! ### The grammar -/

/-- What may follow the kind of a node: a colon and its text, which is the name of the kind
otherwise. -/
inductive IsText (kind : Kind) : List (Lexeme Token) → String → Prop
  | absent : IsText kind [] kind.name
  | present {colon l : Lexeme Token} (hcolon : colon.token = some .colon)
      (hl : l.token = some .word ∨ l.token = some .quoted ∨ l.token = some .braced) :
      IsText kind [colon, l] l.text

/-- A number of a position. One that does not fit into 32 bits counts as 0. -/
def positionNumber (digits : List Char) : Nat :=
  if digitsValue digits < UInt32.size then digitsValue digits else 0

/-- What may follow the text of a node: its position. -/
inductive IsPlace : List (Lexeme Token) → Position → Prop
  | absent : IsPlace [] .unknown
  | present {l : Lexeme Token} {line column : List Char} (hl : l.token = some .position)
      (h : IsPosition l.chars line column) :
      IsPlace [l] ⟨positionNumber line, positionNumber column⟩

/-- The lexemes are a node without its children. -/
inductive IsLeaf : List (Lexeme Token) → Label → Prop
  | mk {l : Lexeme Token} {kind : Kind} {textual place : List (Lexeme Token)} {text : String}
      {position : Position} (hl : l.token = some .word) (hkind : l.text = kind.name)
      (htext : IsText kind textual text) (hplace : IsPlace place position) :
      IsLeaf (l :: (textual ++ place)) { Label.make kind text with position }

mutual

/-- The lexemes are a node. -/
inductive IsNode : List (Lexeme Token) → Tree Label → Prop
  | leaf {ls : List (Lexeme Token)} {label : Label} (h : IsLeaf ls label) : IsNode ls (.leaf label)
  | parens {opening closing : Lexeme Token} {ls below : List (Lexeme Token)} {label : Label}
      {ts : List (Tree Label)} (hopening : opening.token = some .opening) (h : IsLeaf ls label)
      (hbelow : AreNodes below ts) (hclosing : closing.token = some .closing) :
      IsNode (opening :: (ls ++ (below ++ [closing]))) (.node label ts)

/-- The lexemes are nodes in a row. -/
inductive AreNodes : List (Lexeme Token) → List (Tree Label) → Prop
  | nil : AreNodes [] []
  | cons {ls more : List (Lexeme Token)} {t : Tree Label} {ts : List (Tree Label)}
      (h : IsNode ls t) (hmore : AreNodes more ts) : AreNodes (ls ++ more) (t :: ts)

end

variable {l : Lexeme Token} {ls more : List (Lexeme Token)} {t u : Tree Label}
  {ts : List (Tree Label)} {label : Label} {kind : Kind} {text : String} {position : Position}
  {outer : List OpenNode} {n : OpenNode} {stage : Stage} {r r' : Reader} {opens : Bool}
  {cs line column : List Char} {textual place : List (Lexeme Token)}

/-! ### Positions -/

theorem readDigits_eq (h : IsDigits cs) : (readDigits cs).getD 0 = positionNumber cs := by
  have hall : cs.all Char.isDigit = true := List.all_eq_true.mpr h.2
  rw [readDigits, positionNumber]
  by_cases hsize : digitsValue cs < UInt32.size
  · rw [if_pos ⟨h.1, hall, hsize⟩, if_pos hsize, Option.getD_some]
  · rw [if_neg fun h => hsize h.2.2, if_neg hsize, Option.getD_none]

theorem ne_colon_of_isDigits (h : IsDigits cs) : ∀ c ∈ cs, decide (c ≠ ':') = true := by
  intro c hc
  rw [decide_eq_true_eq]
  rintro rfl
  exact absurd (h.2 ':' hc) (by decide)

theorem positionOf_eq (h : IsPosition cs line column) :
    positionOf (cs.drop 1) = ⟨positionNumber line, positionNumber column⟩ := by
  cases h with
  | mk hline hcolumn =>
    have htake : (line ++ ':' :: column).takeWhile (· ≠ ':') = line :=
      takeWhile_append_of_head? (ne_colon_of_isDigits hline) (by simp)
    have hdrop : (line ++ ':' :: column).dropWhile (· ≠ ':') = ':' :: column := by
      rw [List.dropWhile_append_of_pos (ne_colon_of_isDigits hline)]
      simp
    simp only [positionOf, splitPosition, List.drop_one, List.tail_cons, htake, hdrop,
      readDigits_eq hline, readDigits_eq hcolumn]

/-! ### What a reader still needs -/

/-- The lexeme has a token and is spelled like it. -/
def IsToken (l : Lexeme Token) : Prop := ∃ t, l.token = some t ∧ t.IsSpelled l.chars

/-- In the given stage inside the open nodes, the lexemes complete what has been read to the tree
`t`. -/
inductive Follows : List OpenNode × Stage → List (Lexeme Token) → (t : Tree Label) → Prop
  | start {outer : List OpenNode} {ls back : List (Lexeme Token)} {u t : Tree Label}
      (h : IsNode ls u) (hback : Follows (afterTree outer u) back t) :
      Follows (outer, .start) (ls ++ back) t
  | head {outer : List OpenNode} {ls back : List (Lexeme Token)} {label : Label} {t : Tree Label}
      (h : IsLeaf ls label) (hback : Follows (afterNode outer true label) back t) :
      Follows (outer, .head) (ls ++ back) t
  | text {outer : List OpenNode} {opens : Bool} {kind : Kind} {l : Lexeme Token}
      {place back : List (Lexeme Token)} {position : Position} {t : Tree Label}
      (hl : l.token = some .word ∨ l.token = some .quoted ∨ l.token = some .braced)
      (hplace : IsPlace place position)
      (hback : Follows (afterNode outer opens { Label.make kind l.text with position }) back t) :
      Follows (outer, .text opens kind) (l :: (place ++ back)) t
  | inside {outer : List OpenNode} {n : OpenNode} {below back : List (Lexeme Token)}
      {closing : Lexeme Token} {ts : List (Tree Label)} {t : Tree Label}
      (hbelow : AreNodes below ts) (hclosing : closing.token = some .closing)
      (hback : Follows (afterTree outer (.node n.label (n.children.reverse ++ ts))) back t) :
      Follows (outer, .inside n) (below ++ closing :: back) t
  | finished {outer : List OpenNode} {t : Tree Label} : Follows (outer, .finished t) [] t

/-- The lexemes complete what a reader has read to the tree `t`. -/
inductive Continues : Reader → List (Lexeme Token) → (t : Tree Label) → Prop
  | settle {r : Reader} {ls : List (Lexeme Token)} {t : Tree Label} (h : Follows r.settle ls t) :
      Continues r ls t
  | text {outer : List OpenNode} {opens : Bool} {label : Label} {colon : Lexeme Token}
      {ls : List (Lexeme Token)} {t : Tree Label} (hcolon : colon.token = some .colon)
      (h : Follows (outer, .text opens label.kind) ls t) :
      Continues (.pending outer opens label true) (colon :: ls) t
  | place {outer : List OpenNode} {opens mayHaveText : Bool} {label : Label} {l : Lexeme Token}
      {position : Position} {ls : List (Lexeme Token)} {t : Tree Label}
      (hplace : IsPlace [l] position)
      (h : Follows (afterNode outer opens { label with position }) ls t) :
      Continues (.pending outer opens label mayHaveText) (l :: ls) t

/-! ### Soundness -/

theorem readKind_eq_ok (hkind : l.text = kind.name) (outer : List OpenNode) (opens : Bool) :
    readKind outer opens l = .ok (.pending outer opens (.ofKind kind) true) := by
  rw [readKind, hkind, Kind.ofName?_name]

theorem readKind_eq_ok_iff : readKind outer opens l = .ok r ↔
    ∃ kind : Kind, l.text = kind.name ∧ r = .pending outer opens (.ofKind kind) true := by
  constructor
  · intro h
    rw [readKind] at h
    split at h
    · rename_i kind hkind
      exact ⟨kind, (Kind.name_of_ofName? hkind).symm, (Except.ok.inj h).symm⟩
    · cases h
  · rintro ⟨kind, hkind, rfl⟩
    exact readKind_eq_ok hkind outer opens

theorem follows_of_continues_settled (h : Continues (.settled outer stage) ls t) :
    Follows (outer, stage) ls t := by
  cases h with
  | settle h => exact h

/-- Where the name of a kind has been read, the rest of a leaf comes first. -/
theorem exists_leaf_of_continues (hl : l.token = some .word)
    (hread : readKind outer opens l = .ok r) (h : Continues r ls t) :
    ∃ front back label, ls = front ++ back ∧ IsLeaf (l :: front) label ∧
      Follows (afterNode outer opens label) back t := by
  obtain ⟨kind, hkind, rfl⟩ := readKind_eq_ok_iff.mp hread
  cases h with
  | settle h => exact ⟨[], ls, .ofKind kind, rfl, .mk hl hkind .absent .absent, h⟩
  | @text _ _ _ colon ls _ hcolon h =>
    cases h with
    | @text _ _ _ x place back position _ hx hplace hback =>
      exact ⟨[colon, x] ++ place, back, _, rfl, .mk hl hkind (.present hcolon hx) hplace, hback⟩
  | @place _ _ _ _ x position ls _ hplace h =>
    exact ⟨[x], ls, _, rfl, .mk hl hkind .absent hplace, h⟩

/-- Where a node is expected, it comes first. -/
theorem exists_node_of_continues (hread : readNode outer l = .ok r) (h : Continues r ls t) :
    ∃ front back u, l :: ls = front ++ back ∧ IsNode front u ∧
      Follows (afterTree outer u) back t := by
  rw [readNode.eq_def] at hread
  split at hread
  · rename_i hl
    cases hread
    cases follows_of_continues_settled h with
    | @head _ front _ label _ hleaf hback =>
      cases hback with
      | @inside _ _ below back closing ts _ hbelow hclosing hback =>
        exact ⟨l :: (front ++ (below ++ [closing])), back, _, by simp,
          .parens hl hleaf hbelow hclosing, hback⟩
  · rename_i hl
    obtain ⟨front, back, label, rfl, hleaf, hback⟩ := exists_leaf_of_continues hl hread h
    exact ⟨l :: front, back, .leaf label, rfl, .leaf hleaf, hback⟩
  · cases hread

theorem continues_of_grow (hgrow : r.grow? l = some r') (hl : IsToken l)
    (h : Continues r' ls t) : Continues r (l :: ls) t := by
  rw [Reader.grow?.eq_def] at hgrow
  split at hgrow
  · rename_i hcolon
    cases hgrow
    exact .text hcolon (follows_of_continues_settled h)
  · rename_i hposition
    cases hgrow
    obtain ⟨token, htoken, hspelled⟩ := hl
    rw [hposition] at htoken
    cases htoken
    obtain ⟨line, column, hchars⟩ := hspelled
    refine .place (.present hposition hchars) ?_
    rw [← positionOf_eq hchars]
    exact follows_of_continues_settled h
  · cases hgrow

theorem readIn_text_eq_ok (h : readIn outer (.text opens kind) l = .ok r) :
    (l.token = some .word ∨ l.token = some .quoted ∨ l.token = some .braced) ∧
      r = .pending outer opens (.make kind l.text) false := by
  rw [readIn] at h
  split at h
  · exact ⟨.inl ‹_›, (Except.ok.inj h).symm⟩
  · exact ⟨.inr (.inl ‹_›), (Except.ok.inj h).symm⟩
  · exact ⟨.inr (.inr ‹_›), (Except.ok.inj h).symm⟩
  · cases h

/-- What a lexeme needs behind it, and the lexeme itself, is what is needed before it is read. -/
theorem follows_of_readIn (hread : readIn outer stage l = .ok r) (h : Continues r ls t) :
    Follows (outer, stage) (l :: ls) t := by
  cases stage with
  | start =>
    obtain ⟨front, back, u, happend, hu, hback⟩ := exists_node_of_continues hread h
    rw [happend]
    exact .start hu hback
  | head =>
    rw [readIn] at hread
    split at hread
    · rename_i hl
      obtain ⟨front, back, label, rfl, hleaf, hback⟩ := exists_leaf_of_continues hl hread h
      exact .head hleaf hback
    · cases hread
  | text opens kind =>
    obtain ⟨hl, rfl⟩ := readIn_text_eq_ok hread
    cases h with
    | settle h => exact .text hl .absent h
    | place hplace h => exact .text hl hplace h
  | inside n =>
    rw [readIn] at hread
    split at hread
    · rename_i hclosing
      cases hread
      have hback : Follows (afterTree outer (.node n.label (n.children.reverse ++ []))) ls t := by
        rw [List.append_nil]
        exact follows_of_continues_settled h
      exact .inside .nil hclosing hback
    · obtain ⟨front, back, u, happend, hu, hback⟩ := exists_node_of_continues hread h
      rw [happend]
      -- The node is a child of `n`, in front of the children that complete it.
      cases hback with
      | @inside _ _ below back closing ts _ hbelow hclosing hback =>
        have hchildren : (n.add u).children.reverse ++ ts = n.children.reverse ++ u :: ts := by
          simp [OpenNode.add]
        rw [hchildren] at hback
        rw [← List.append_assoc]
        exact .inside (.cons hu hbelow) hclosing hback
  | finished tree => cases hread

/-- What is read to the end completes what had been read before it. -/
theorem continues_of_readLexemes (hls : ∀ l ∈ ls, IsToken l) (h : readLexemes r ls = .ok t) :
    Continues r ls t := by
  induction ls generalizing r with
  | nil =>
    refine .settle ?_
    rw [readLexemes] at h
    generalize r.settle = s at h
    obtain ⟨outer, stage⟩ := s
    cases stage with
    | finished tree => cases h; exact .finished
    | _ => cases h
  | cons l ls ih =>
    obtain ⟨hl, hls⟩ := List.forall_mem_cons.mp hls
    rw [readLexemes] at h
    split at h
    · rename_i hgrow
      exact continues_of_grow hgrow hl (ih hls h)
    · simp only at h
      split at h
      · rename_i hread
        exact .settle (follows_of_readIn hread (ih hls h))
      · cases h

theorem isNode_of_readLexemes (hls : ∀ l ∈ ls, IsToken l)
    (h : readLexemes (.settled [] .start) ls = .ok t) : IsNode ls t := by
  cases follows_of_continues_settled (continues_of_readLexemes hls h) with
  | start hu hback =>
    cases hback with
    | finished =>
      rw [List.append_nil]
      exact hu

/-! ### Completeness -/

/-- The lexemes bring the reader `r` to the reader `r'`. -/
def Reads (r : Reader) (ls : List (Lexeme Token)) (r' : Reader) : Prop :=
  ∀ more, readLexemes r (ls ++ more) = readLexemes r' more

/-- The next node that is read goes to the given open nodes. -/
inductive Awaits (r : Reader) : List OpenNode → Prop
  | start : r.settle = ([], .start) → Awaits r []
  | inside {n : OpenNode} {outer : List OpenNode} :
      r.settle = (outer, .inside n) → Awaits r (n :: outer)

theorem Reads.trans {r'' : Reader} (h : Reads r ls r') (hmore : Reads r' more r'') :
    Reads r (ls ++ more) r'' := by
  intro rest
  rw [List.append_assoc, h, hmore]

theorem Reads.cons {r'' : Reader} (h : Reads r [l] r') (hls : Reads r' ls r'') :
    Reads r (l :: ls) r'' := h.trans hls

theorem reads_of_grow (h : r.grow? l = some r') : Reads r [l] r' := by
  intro more
  rw [List.singleton_append, readLexemes, h]

theorem reads_of_readIn (hgrow : r.grow? l = none) (hr : r.settle = (outer, stage))
    (h : readIn outer stage l = .ok r') : Reads r [l] r' := by
  intro more
  rw [List.singleton_append, readLexemes, hgrow, hr]
  simp only [h]

theorem grow?_eq_none {token : Token} (hl : l.token = some token) (hcolon : token ≠ .colon)
    (hposition : token ≠ .position) : r.grow? l = none := by
  rw [Reader.grow?.eq_def]
  split <;> simp_all

theorem grow?_settled (l : Lexeme Token) : (Reader.settled outer stage).grow? l = none := by
  rw [Reader.grow?.eq_def]

theorem reads_of_readNode {token : Token} (h : Awaits r outer) (hl : l.token = some token)
    (htoken : token = .opening ∨ token = .word) (hread : readNode outer l = .ok r') :
    Reads r [l] r' := by
  have hgrow : r.grow? l = none := by
    rcases htoken with rfl | rfl <;> exact grow?_eq_none hl (by decide) (by decide)
  cases h with
  | start hr => exact reads_of_readIn hgrow hr hread
  | inside hr =>
    refine reads_of_readIn hgrow hr ?_
    have hclosing : l.token ≠ some .closing := by
      rcases htoken with rfl | rfl <;> simp [hl]
    rw [readIn, if_neg hclosing, hread]

theorem readIn_text (hl : l.token = some .word ∨ l.token = some .quoted ∨ l.token = some .braced)
    (outer : List OpenNode) (opens : Bool) (kind : Kind) :
    readIn outer (.text opens kind) l = .ok (.pending outer opens (.make kind l.text) false) := by
  rw [readIn]
  rcases hl with hl | hl | hl <;> rw [hl]

/-- A position ends a node. -/
theorem exists_reads_place (h : IsPlace place position) (outer : List OpenNode) (opens : Bool)
    (hlabel : label.position = .unknown) (mayHaveText : Bool) :
    ∃ r, r.settle = afterNode outer opens { label with position } ∧
      Reads (.pending outer opens label mayHaveText) place r := by
  cases h with
  | absent => exact ⟨.pending outer opens label mayHaveText, by rw [← hlabel]; rfl, fun _ => rfl⟩
  | @present l line column hl hchars =>
    refine ⟨.ofStage (afterNode outer opens _), rfl, reads_of_grow ?_⟩
    simp only [Reader.grow?, hl, positionOf_eq hchars]

/-- The rest of a leaf ends a node. -/
theorem exists_reads_leaf (htext : IsText kind textual text) (hplace : IsPlace place position)
    (outer : List OpenNode) (opens : Bool) :
    ∃ r, r.settle = afterNode outer opens { Label.make kind text with position } ∧
      Reads (.pending outer opens (.ofKind kind) true) (textual ++ place) r := by
  cases htext with
  | absent => exact exists_reads_place hplace outer opens rfl true
  | @present colon l hcolon hl =>
    have hplace : ∃ r, r.settle = afterNode outer opens { Label.make kind l.text with position } ∧
        Reads (.pending outer opens (.make kind l.text) false) place r :=
      exists_reads_place hplace outer opens rfl false
    obtain ⟨r, hr, hreads⟩ := hplace
    have hcolon : Reads (.pending outer opens (.ofKind kind) true) [colon]
        (.settled outer (.text opens kind)) := by
      refine reads_of_grow ?_
      simp only [Reader.grow?, hcolon]
      rfl
    have hl : Reads (.settled outer (.text opens kind)) [l]
        (.pending outer opens (.make kind l.text) false) :=
      reads_of_readIn (grow?_settled l) rfl (readIn_text hl outer opens kind)
    exact ⟨r, hr, hcolon.cons (hl.cons hreads)⟩

/-- Reading a leaf adds it to the open nodes. -/
theorem exists_reads_of_isLeaf (h : IsLeaf ls label) (hr : Awaits r outer) :
    ∃ r', r'.settle = afterTree outer (.leaf label) ∧ Reads r ls r' := by
  obtain ⟨hl, hkind, htext, hplace⟩ := h
  obtain ⟨r', hr', hreads⟩ := exists_reads_leaf htext hplace outer false
  refine ⟨r', hr', Reads.cons (reads_of_readNode hr hl (.inr rfl) ?_) hreads⟩
  rw [readNode, hl, readKind_eq_ok hkind]

/-- Reading an opening parenthesis and a leaf opens a node. -/
theorem exists_reads_of_opening (hl : l.token = some .opening) (h : IsLeaf ls label)
    (hr : Awaits r outer) :
    ∃ r', r'.settle = (outer, .inside ⟨label, []⟩) ∧ Reads r (l :: ls) r' := by
  obtain ⟨hword, hkind, htext, hplace⟩ := h
  obtain ⟨r', hr', hreads⟩ := exists_reads_leaf htext hplace outer true
  refine ⟨r', hr', Reads.cons (reads_of_readNode hr hl (.inl rfl) (by rw [readNode, hl]))
    (Reads.cons (reads_of_readIn (grow?_settled _) rfl ?_) hreads)⟩
  rw [readIn, if_pos hword, readKind_eq_ok hkind]

/-- Reading a closing parenthesis adds the node that it closes to the open nodes. -/
theorem exists_reads_of_closing (hl : l.token = some .closing)
    (hr : r.settle = (outer, .inside n)) :
    ∃ r', r'.settle = afterTree outer n.tree ∧ Reads r [l] r' := by
  refine ⟨.ofStage (afterTree outer n.tree), rfl, reads_of_readIn ?_ hr ?_⟩
  · exact grow?_eq_none hl (by decide) (by decide)
  · rw [readIn, if_pos hl]

mutual

/-- Reading a node adds its tree to the open nodes. -/
theorem exists_reads_of_isNode {ls : List (Lexeme Token)} {t : Tree Label} (h : IsNode ls t)
    {r : Reader} {outer : List OpenNode} (hr : Awaits r outer) :
    ∃ r', r'.settle = afterTree outer t ∧ Reads r ls r' := by
  match h with
  | .leaf hleaf => exact exists_reads_of_isLeaf hleaf hr
  | @IsNode.parens _ _ _ _ label ts hopening hleaf hbelow hclosing =>
    obtain ⟨r₁, hr₁, hopens⟩ := exists_reads_of_opening hopening hleaf hr
    obtain ⟨r₂, hr₂, hinner⟩ := exists_reads_of_areNodes hbelow hr₁
    obtain ⟨r₃, hr₃, hcloses⟩ := exists_reads_of_closing hclosing hr₂
    refine ⟨r₃, ?_, hopens.trans (hinner.trans hcloses)⟩
    rw [hr₃, OpenNode.tree]
    simp

/-- Reading nodes in a row adds their trees to the node around them. -/
theorem exists_reads_of_areNodes {ls : List (Lexeme Token)} {ts : List (Tree Label)}
    (h : AreNodes ls ts) {r : Reader} {outer : List OpenNode} {n : OpenNode}
    (hr : r.settle = (outer, .inside n)) :
    ∃ r', r'.settle = (outer, .inside { n with children := ts.reverse ++ n.children }) ∧
      Reads r ls r' := by
  match h with
  | .nil => exact ⟨r, hr, fun _ => rfl⟩
  | .cons hnode hmore =>
    obtain ⟨r₁, hr₁, hfirst⟩ := exists_reads_of_isNode hnode (.inside hr)
    obtain ⟨r₂, hr₂, hothers⟩ := exists_reads_of_areNodes hmore hr₁
    refine ⟨r₂, ?_, hfirst.trans hothers⟩
    rw [hr₂, OpenNode.add]
    simp

end

theorem readLexemes_of_isNode (h : IsNode ls t) :
    readLexemes (.settled [] .start) ls = .ok t := by
  obtain ⟨r, hr, hreads⟩ := exists_reads_of_isNode h (r := .settled [] .start) (.start rfl)
  rw [← List.append_nil ls, hreads, readLexemes, hr]
  rfl

end GrammarTrees.TreeText
