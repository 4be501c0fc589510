import GrammarTrees.Proofs.TreeText.RoundTrip

/-! Where reading fails. Every reader can be brought to a tree, so what it has read can be gone on
with to a node; a lexeme that it refuses it refuses whatever comes next. So the lexeme that is
reported is the first one with which no node can go on, and the end of the text is reported only
where more lexemes would make a node. -/

namespace GrammarTrees

namespace TreeText

/-- More lexemes can make the lexemes a node. -/
def Viable (ls : List (Lexeme Token)) : Prop :=
  ∃ more t, (∀ l ∈ more, IsToken l) ∧ IsNode (ls ++ more) t

/-- The error reports the lexeme. -/
inductive ReadError.Reports : ReadError → Lexeme Token → Prop
  | unexpected (l : Lexeme Token) (expected : Expected) :
      Reports (.unexpected l.text l.offset expected) l
  | unknownKind (l : Lexeme Token) : Reports (.unknownKind l.text l.offset) l

variable {l : Lexeme Token} {ls more : List (Lexeme Token)} {t : Tree Label} {label : Label}
  {outer : List OpenNode} {n : OpenNode} {stage : Stage} {r r' : Reader} {opens : Bool}
  {e : ReadError} {left : List (Tree Label)} {source : String}

/-! ### Readers that come to a tree -/

/-- More lexemes bring the reader to a tree. -/
def Completable (r : Reader) : Prop :=
  ∃ more t, (∀ l ∈ more, IsToken l) ∧ readLexemes r more = .ok t

/-- A closing parenthesis. -/
def closing : Lexeme Token := ⟨some .closing, [')'], 0⟩

/-- The name of a kind. -/
def kindName : Lexeme Token := ⟨some .word, Kind.rule.name.toList, 0⟩

theorem isToken_closing : IsToken closing := ⟨.closing, rfl, rfl⟩

theorem isToken_kindName : IsToken kindName := ⟨.word, rfl, isWord_name .rule⟩

theorem Completable.of_reads (hl : IsToken l) (h : Reads r [l] r') (hr' : Completable r') :
    Completable r := by
  obtain ⟨more, t, hmore, hread⟩ := hr'
  exact ⟨l :: more, t, List.forall_mem_cons.mpr ⟨hl, hmore⟩, (h more).trans hread⟩

/-- A reader that has come to a tree, with more nodes open around it. -/
theorem completable_of_afterTree (hr : r.settle = afterTree outer t) : Completable r := by
  induction outer generalizing r t with
  | nil =>
    refine ⟨[], t, nofun, ?_⟩
    rw [readLexemes, hr]
    rfl
  | cons n outer ih =>
    obtain ⟨r', hr', hreads⟩ := exists_reads_of_closing (l := closing) rfl hr
    exact .of_reads isToken_closing hreads (ih hr')

theorem completable_of_inside (hr : r.settle = (outer, .inside n)) : Completable r := by
  obtain ⟨r', hr', hreads⟩ := exists_reads_of_closing (l := closing) rfl hr
  exact .of_reads isToken_closing hreads (completable_of_afterTree hr')

theorem completable_of_afterNode (hr : r.settle = afterNode outer opens label) :
    Completable r := by
  cases opens with
  | true => exact completable_of_inside hr
  | false => exact completable_of_afterTree hr

/-- Whatever has been read can be completed to a tree. -/
theorem completable (r : Reader) : Completable r := by
  cases r with
  | pending outer opens label mayHaveText => exact completable_of_afterNode rfl
  | settled outer stage =>
    have hname : kindName.text = Kind.rule.name := String.ofList_toList
    have hkind := readKind_eq_ok hname outer
    cases stage with
    | start =>
      exact .of_reads isToken_kindName (reads_of_readIn (grow?_settled _) rfl (hkind false))
        (completable_of_afterNode rfl)
    | head =>
      exact .of_reads isToken_kindName (reads_of_readIn (grow?_settled _) rfl (hkind true))
        (completable_of_afterNode rfl)
    | text opens kind =>
      exact .of_reads isToken_kindName
        (reads_of_readIn (grow?_settled _) rfl (readIn_text (.inl rfl) outer opens kind))
        (completable_of_afterNode rfl)
    | inside n => exact completable_of_inside rfl
    | finished t => exact ⟨[], t, nofun, rfl⟩

/-! ### Failures -/

theorem reports_of_readKind (h : readKind outer opens l = .error e) : e.Reports l := by
  rw [readKind] at h
  split at h <;> cases h
  exact .unknownKind l

theorem reports_of_readNode (h : readNode outer l = .error e) : e.Reports l := by
  rw [readNode.eq_def] at h
  split at h
  · cases h
  · exact reports_of_readKind h
  · cases h
    exact .unexpected l .node

/-- What is refused is reported. -/
theorem reports_of_readIn (h : readIn outer stage l = .error e) : e.Reports l := by
  cases stage with
  | start => exact reports_of_readNode h
  | head =>
    rw [readIn] at h
    split at h
    · exact reports_of_readKind h
    · cases h
      exact .unexpected l .kind
  | text opens kind =>
    rw [readIn] at h
    split at h <;> cases h
    exact .unexpected l .text
  | inside n =>
    rw [readIn] at h
    split at h
    · cases h
    · exact reports_of_readNode h
  | finished t =>
    cases h
    exact .unexpected l .ending

/-- Reading fails at a lexeme that is refused whatever comes after it, or at the end. -/
theorem exists_of_readLexemes_error (h : readLexemes r ls = .error (e, left)) :
    (∃ before l after r', ls = before ++ l :: after ∧ Reads r before r' ∧
      (∀ more, readLexemes r' (l :: more) = .error (e, left)) ∧ e.Reports l) ∨
    ∃ r', Reads r ls r' ∧ ∃ expected, e = .unexpectedEnd expected := by
  induction ls generalizing r with
  | nil =>
    refine .inr ⟨r, fun _ => rfl, ?_⟩
    rw [readLexemes] at h
    generalize r.settle = s at h
    obtain ⟨outer, stage⟩ := s
    cases stage <;> cases h <;> exact ⟨_, rfl⟩
  | cons l ls ih =>
    -- Where the lexeme is taken, the rest is read by the next reader.
    have further {r' : Reader} (hl : Reads r [l] r') (h : readLexemes r' ls = .error (e, left)) :
        (∃ before x after r', l :: ls = before ++ x :: after ∧ Reads r before r' ∧
          (∀ more, readLexemes r' (x :: more) = .error (e, left)) ∧ e.Reports x) ∨
        ∃ r', Reads r (l :: ls) r' ∧ ∃ expected, e = .unexpectedEnd expected := by
      rcases ih h with ⟨before, x, after, r'', rfl, hbefore, hx⟩ | ⟨r'', hls, he⟩
      · exact .inl ⟨l :: before, x, after, r'', rfl, hl.cons hbefore, hx⟩
      · exact .inr ⟨r'', hl.cons hls, he⟩
    rw [readLexemes] at h
    cases hgrow : r.grow? l with
    | some r' =>
      rw [hgrow] at h
      exact further (reads_of_grow hgrow) h
    | none =>
      cases hread : readIn r.settle.1 r.settle.2 l with
      | ok r' =>
        simp only [hgrow, hread] at h
        exact further (reads_of_readIn hgrow rfl hread) h
      | error e' =>
        have hrefused (more : List (Lexeme Token)) : readLexemes r (l :: more) =
            .error (e', leftovers r.settle.1 r.settle.2) := by
          rw [readLexemes, hgrow]
          simp only [hread]
        simp only [hgrow, hread, Except.error.injEq, Prod.mk.injEq] at h
        obtain ⟨rfl, rfl⟩ := h
        exact .inl ⟨[], l, ls, r, rfl, fun _ => rfl, hrefused, reports_of_readIn hread⟩

theorem viable_of_reads (h : Reads (.settled [] .start) ls r) (hls : ∀ l ∈ ls, IsToken l) :
    Viable ls := by
  obtain ⟨more, t, hmore, hread⟩ := completable r
  refine ⟨more, t, hmore, isNode_of_readLexemes ?_ ((h more).trans hread)⟩
  intro l hl
  exact (List.mem_append.mp hl).elim (hls l) (hmore l)

/-- No node goes on with a lexeme that is refused. -/
theorem not_viable_of_reads (h : Reads (.settled [] .start) ls r)
    (hl : ∀ more, readLexemes r (l :: more) = .error (e, left)) : ¬ Viable (ls ++ [l]) := by
  rintro ⟨more, t, -, ht⟩
  have hread := readLexemes_of_isNode ht
  rw [List.append_assoc, List.singleton_append, h, hl] at hread
  cases hread

/-! ### Texts -/

/-- The lexemes that are not gaps. -/
def visible (ls : List (Lexeme Token)) : List (Lexeme Token) := ls.filter (·.token ≠ some .gap)

/-- The lexemes of the text, without gaps, are a node with the tree `t`. -/
def Derives (source : String) (t : Tree Label) : Prop :=
  ∃ ls, Lexes Token.IsSpelled 0 source.toList ls ∧ IsNode (visible ls) t

/-- The error tells where the text ceases to be a node. -/
inductive Fails (source : String) : ReadError → Prop
  | unlexable {offset : Nat} (h : SticksAt Token.IsSpelled 0 source.toList offset) :
      Fails source (.invalidInput offset)
  | refused {ls before after : List (Lexeme Token)} {l : Lexeme Token} {e : ReadError}
      (hls : Lexes Token.IsSpelled 0 source.toList ls) (happend : visible ls = before ++ l :: after)
      (hbefore : Viable before) (hl : ¬ Viable (before ++ [l])) (he : e.Reports l) : Fails source e
  | unfinished {ls : List (Lexeme Token)} {expected : Expected}
      (hls : Lexes Token.IsSpelled 0 source.toList ls) (hviable : Viable (visible ls)) :
      Fails source (.unexpectedEnd expected)

theorem isToken_of_lexes {offset : Nat} {cs : List Char}
    (h : Lexes Token.IsSpelled offset cs ls) : ∀ l ∈ ls, IsToken l := by
  induction h with
  | nil => exact nofun
  | cons h _ ih => exact List.forall_mem_cons.mpr ⟨⟨_, rfl, h.spelled⟩, ih⟩

theorem isToken_of_mem_visible {offset : Nat} {cs : List Char}
    (h : Lexes Token.IsSpelled offset cs ls) : ∀ l ∈ visible ls, IsToken l :=
  fun l hl => isToken_of_lexes h l (List.mem_of_mem_filter hl)

theorem read_of_lexes (h : Lexes Token.IsSpelled 0 source.toList ls) :
    read source = readLexemes (.settled [] .start) (visible ls) := by
  obtain ⟨hread, htokens⟩ := readFrom_of_lexes finds h
  have hnone : ls.find? (·.token.isNone) = none := by
    rw [List.find?_eq_none]
    intro l hl
    simpa using Option.isSome_iff_ne_none.mp (htokens l hl)
  rw [read, Lexeme.readAll, hread]
  simp only [hnone]
  rfl

theorem read_eq_ok_iff : read source = .ok t ↔ Derives source t := by
  constructor
  · intro h
    rcases exists_lexes_or_sticksAt finds 0 source.toList with hls | ⟨l, hl, -⟩
    · rw [read_of_lexes hls] at h
      exact ⟨_, hls, isNode_of_readLexemes (isToken_of_mem_visible hls) h⟩
    · rw [read, Lexeme.readAll] at h
      simp only [hl] at h
      cases h
  · rintro ⟨ls, hls, ht⟩
    rw [read_of_lexes hls, readLexemes_of_isNode ht]

theorem fails_of_read (h : read source = .error (e, left)) : Fails source e := by
  rcases exists_lexes_or_sticksAt finds 0 source.toList with hls | ⟨l, hl, hsticks⟩
  · rw [read_of_lexes hls] at h
    have htokens := isToken_of_mem_visible hls
    rcases exists_of_readLexemes_error h with
      ⟨before, l, after, r, happend, hbefore, hl, he⟩ | ⟨r, hr, expected, rfl⟩
    · refine .refused hls happend (viable_of_reads hbefore fun x hx => ?_)
        (not_viable_of_reads hbefore hl) he
      exact htokens x (happend ▸ List.mem_append_left _ hx)
    · exact .unfinished hls (viable_of_reads hr htokens)
  · rw [read, Lexeme.readAll] at h
    simp only [hl] at h
    cases h
    exact .unlexable hsticks

end TreeText

namespace Forest

variable {f g : Forest} {root : NodeId}

theorem exists_of_derives {source : String} {t : Tree Label} (hf : f.WellFormed)
    (h : TreeText.Derives source t) :
    ∃ g root, f.read source = (g, .ok root) ∧ g.labelTree root = t :=
  ⟨_, _, read_of_ok (TreeText.read_eq_ok_iff.mpr h), (planted_plant hf t).labelTree_root⟩

theorem derives_of_read {source : String} (hf : f.WellFormed)
    (h : f.read source = (g, .ok root)) : TreeText.Derives source (g.labelTree root) := by
  obtain ⟨t, ht, hg⟩ := planted_of_read hf h
  rw [hg.labelTree_root]
  exact TreeText.read_eq_ok_iff.mp ht

/-- A text is read if and only if its tokens derive a node, and what is read is the tree of the
derivation, which is the only one. A text that is not read is reported to fail at the first
character that starts no token, or else at the first token with which no node can go on, or else at
its end. -/
theorem read_derives (hf : f.WellFormed) (source : String) :
    (∀ t, (∃ g root, f.read source = (g, .ok root) ∧ g.labelTree root = t) ↔
      TreeText.Derives source t) ∧
    (∀ t u, TreeText.Derives source t → TreeText.Derives source u → t = u) ∧
    ∀ g e, f.read source = (g, .error e) → TreeText.Fails source e := by
  refine ⟨fun t => ⟨?_, exists_of_derives hf⟩, fun t u ht hu => ?_, fun g e h => ?_⟩
  · rintro ⟨g, root, h, rfl⟩
    exact derives_of_read hf h
  · have hread := TreeText.read_eq_ok_iff.mpr ht
    rw [TreeText.read_eq_ok_iff.mpr hu] at hread
    exact (Except.ok.inj hread).symm
  · rw [read] at h
    split at h
    · cases (Prod.mk.inj h).2
    · rename_i e' left hread
      obtain rfl := Except.error.inj (Prod.mk.inj h).2
      exact TreeText.fails_of_read hread

theorem read_derives_rule :
    TreeText.Derives "(RULE:a@2:7 BLOCK)"
      (.node { Label.make .rule "a" with position := ⟨2, 7⟩ } [.leaf (.ofKind .block)]) ∧
    TreeText.Fails "(RULE:a@2:7 BLOCK" (.unexpectedEnd .closing) ∧
    TreeText.Fails "RULE:a) BLOCK" (.unexpected ")" 6 .ending) :=
  ⟨((read_derives .empty "(RULE:a@2:7 BLOCK)").1 _).mp
      ⟨_, _, rfl, (planted_plant .empty _).labelTree_root⟩,
    (read_derives .empty "(RULE:a@2:7 BLOCK").2.2 _ _ rfl,
    (read_derives .empty "RULE:a) BLOCK").2.2 _ _ rfl⟩

/-- A line of 2 ^ 32 is read as 0. -/
theorem read_position_overflow :
    ∃ g root, empty.read "RULE:a@4294967296:7" = (g, .ok root) ∧
      TreeText.IsPosition "@4294967296:7".toList "4294967296".toList "7".toList ∧
      digitsValue "4294967296".toList = 4294967296 ∧
      (g.labelTree root).label.position = ⟨0, 7⟩ := by
  have hline : TreeText.IsDigits "4294967296".toList :=
    ⟨by decide, List.all_eq_true.mp rfl⟩
  have hcolumn : TreeText.IsDigits "7".toList := ⟨by decide, List.all_eq_true.mp rfl⟩
  have hspelled : TreeText.IsPosition "@4294967296:7".toList _ _ := .mk hline hcolumn
  have hread : (TreeText.read "RULE:a@4294967296:7").toOption.map (·.label.position) =
      some ⟨0, 7⟩ := by decide +kernel
  obtain ⟨t, ht, hposition⟩ := Option.map_eq_some_iff.mp hread
  cases hok : TreeText.read "RULE:a@4294967296:7" with
  | error e =>
    rw [hok] at ht
    cases ht
  | ok u =>
    rw [hok] at ht
    cases ht
    obtain ⟨g, root, hg, rfl⟩ := exists_of_derives .empty (TreeText.read_eq_ok_iff.mp hok)
    exact ⟨g, root, hg, hspelled, by decide +kernel, hposition⟩

end Forest

end GrammarTrees
