import GrammarTrees.Proofs.LexerExtraction.LiteralRules

/-! The tree of a lexer that is split off. Below its name stand copies of the options that concern a
lexer and of all named actions, and last its rules. -/

namespace GrammarTrees

namespace LexerExtraction

open Forest

variable {f g : Forest} {root rules lexer a : Nat} {l : Label} {t : Tree Label}
  {ts : List (Tree Label)} {as : List NodeId}

/-! ### What follows the copies -/

/-- `g` is `f` with a new tree `t` at `lexer` and other changes that keep the labels of `f`. -/
structure Lexed (f g : Forest) (lexer : NodeId) (t : Tree Label) : Prop where
  wellFormed : g.WellFormed
  label : ∀ x < f.size, g.label x = f.label x
  lexer_lt : lexer < g.size
  isRoot : g.parent? lexer = none
  fresh : ∀ x, g.Within x lexer → f.size ≤ x
  labelTree : g.labelTree lexer = t

theorem Lexed.of_planted (hf : f.WellFormed) (hg : f.Planted g lexer t) : Lexed f g lexer t :=
  ⟨hg.wellFormed, fun _ hx => hg.toGrown.label hx, hg.root_lt, hg.isRoot,
    fun _ hx => hg.size_le_of_within hf hx, hg.labelTree_root⟩

theorem Lexed.children_detach (hg : Lexed f g lexer t) (ha : a < f.size) {x : Nat}
    (hx : g.Within x lexer) : (g.detach a).children x = g.children x := by
  rw [Forest.children_detach hg.wellFormed, List.erase_of_not_mem]
  intro hax
  have hle := hg.fresh a (.of_parent (hg.wellFormed.mem_children.mp hax) hx)
  omega

/-- Old nodes do not stand in the tree of the lexer. -/
theorem Lexed.delete (hg : Lexed f g lexer t) (ha : a < f.size) :
    Lexed f (g.deleteChild root a).1 lexer t := by
  unfold deleteChild
  split
  · refine ⟨hg.wellFormed.detach a, fun x hx => ?_, ?_, ?_,
      fun x hx => hg.fresh x (within_of_detach hg.wellFormed hx), ?_⟩
    · rw [label_detach, hg.label x hx]
    · rw [size_detach]
      exact hg.lexer_lt
    · rw [parent?_detach hg.wellFormed, hg.isRoot, ite_self]
    · rw [← hg.labelTree]
      exact labelTree_congr (S := fun x => g.Within x lexer) hg.wellFormed
        (hg.wellFormed.detach a)
        (fun x hx c hc => .of_parent (hg.wellFormed.mem_children.mp hc) hx)
        (fun x hx => hg.children_detach ha hx) (fun x _ => label_detach g a x) (.refl g lexer)
        hg.lexer_lt
        (Nat.le_of_eq (size_detach ..).symm)
  · exact hg

theorem Lexed.optionsOf_delete (hg : Lexed f g lexer t) (ha : a < f.size) :
    (g.deleteChild root a).1.optionsOf lexer = g.optionsOf lexer := by
  unfold deleteChild
  split
  · have hlist : (g.detach a).children lexer = g.children lexer ++ [] := by
      rw [hg.children_detach ha (.refl g lexer), List.append_nil]
    exact optionsOf_extended hg.wellFormed hlist nofun (fun x hx _ => hg.children_detach ha hx)
      fun x _ => label_detach g a x
  · rfl

theorem Lexed.deleteAll (hg : Lexed f g lexer t) (root : NodeId) (has : ∀ a ∈ as, a < f.size) :
    Lexed f (as.foldl (fun f a => (f.deleteChild root a).1) g) lexer t := by
  induction as generalizing g with
  | nil => exact hg
  | cons a as ih =>
    rw [List.forall_mem_cons] at has
    exact ih (hg.delete has.1) has.2

theorem Lexed.optionsOf_deleteAll (hg : Lexed f g lexer t) (root : NodeId)
    (has : ∀ a ∈ as, a < f.size) :
    (as.foldl (fun f a => (f.deleteChild root a).1) g).optionsOf lexer = g.optionsOf lexer := by
  induction as generalizing g with
  | nil => rfl
  | cons a as ih =>
    rw [List.forall_mem_cons] at has
    rw [List.foldl_cons, ih (hg.delete has.1) has.2, hg.optionsOf_delete has.1]

/-- In `g`, the lexer has the trees `ts` below its root, and after them its rules. -/
structure WithRules (f g : Forest) (lexer : NodeId) (l : Label) (ts : List (Tree Label))
    (lexerRules : NodeId) : Prop where
  wellFormed : g.WellFormed
  size_le : f.size ≤ g.size
  label : ∀ x < f.size, g.label x = f.label x
  lexer_lt : lexer < g.size
  labelTree : g.labelTree lexer = .node l (ts ++ [g.labelTree lexerRules])
  rules : lexerRules < g.size
  kind : g.kind lexerRules = .rules

/-- The token rules of the grammar move to a new section of the lexer. -/
theorem Lexed.moveRules (hg : Lexed f g lexer t) (hrules : rules < f.size) :
    ∃ k d, (g.alloc (.ofKind .rules)).1.pushChild lexer g.size = .ok k ∧
      k.pushChildren g.size (tokenRules k rules) = .ok d ∧
      g.PlantedBelow k lexer [.leaf (.ofKind .rules)] ∧ k.size = g.size + 1 ∧
      k.children lexer = g.children lexer ++ [g.size] ∧
      k.Gathered d g.size rules (tokenRules k rules) := by
  have hnew : f.size ≤ lexer := hg.fresh lexer (.refl g lexer)
  have hlexer : lexer < g.size := hg.lexer_lt
  have hplanted := planted_alloc hg.wellFormed (.ofKind .rules)
  obtain ⟨k, hk, hbelow, hsize, hc, -⟩ := hplanted.pushChild hg.wellFormed hlexer
  rw [size_alloc] at hsize
  have hhangs : k.parent? g.size = some lexer := by
    apply hbelow.wellFormed.mem_children.mp
    rw [hc]
    exact List.mem_append_right _ (List.mem_singleton_self g.size)
  have hroot : k.parent? lexer = none := by
    rw [hbelow.parent?_parent, hg.isRoot]
  have hapart : ¬ k.Within g.size rules := by
    intro hw
    rcases within_iff.mp hw with he | ⟨p, hp, hpw⟩
    · omega
    · obtain rfl : lexer = p := Option.some.inj (hhangs.symm.trans hp)
      have he := hpw.eq_of_root hroot
      omega
  obtain ⟨d, hd, hgathered⟩ := pushChildren_eq_ok hbelow.wellFormed (by omega) hapart
    (fun r hr => (mem_tokenRules hbelow.wellFormed hr).1) (nodup_tokenRules hbelow.wellFormed rules)
  exact ⟨k, d, hk, hd, hbelow, hsize, hc, hgathered⟩

theorem Lexed.addRules (hg : Lexed f g lexer (.node l ts)) (hrules : rules < f.size)
    (own : Grammar) :
    ∃ k d m, (g.alloc (.ofKind .rules)).1.pushChild lexer g.size = .ok k ∧
      k.pushChildren g.size (tokenRules k rules) = .ok d ∧
      addLiteralRules own g.size d = .ok m ∧ WithRules f m.forest lexer l ts g.size ∧
      m.forest.optionsOf lexer = g.optionsOf lexer := by
  have hnew : f.size ≤ lexer := hg.fresh lexer (.refl g lexer)
  have hlexer : lexer < g.size := hg.lexer_lt
  obtain ⟨k, d, hk, hd, hbelow, hsize, hc, hgathered⟩ := hg.moveRules hrules
  have hdlt : g.size < d.size := by
    rw [hgathered.size, hsize]
    exact Nat.lt_succ_self g.size
  obtain ⟨m, made, ns, hm, hmerged⟩ :=
    addLiteralRules_merged hgathered.wellFormed hdlt rfl own
  have hlabel : ∀ x < g.size, m.forest.label x = g.label x := by
    intro x hx
    rw [hmerged.label x (Nat.lt_trans hx hdlt), hgathered.label, hbelow.label_eq hx]
  have hkept : ∀ x < g.size, f.size ≤ x → m.forest.children x = k.children x := by
    intro x hx hfx
    rw [hmerged.children x (Nat.lt_trans hx hdlt) (Nat.ne_of_lt hx), hgathered.children,
      if_neg (Nat.ne_of_lt hx), List.filter_eq_self]
    intro c hcx
    rw [decide_eq_true_eq]
    intro hmoved
    have hpx := hbelow.wellFormed.mem_children.mp hcx
    rw [(mem_tokenRules hbelow.wellFormed hmoved).1] at hpx
    obtain rfl := Option.some.inj hpx
    omega
  have hmlt := Nat.lt_of_lt_of_le hdlt hmerged.size_le
  have hbelowKept : ∀ x, g.Within x lexer → x ≠ lexer →
      m.forest.children x = g.children x := fun x hx hne => by
    rw [hkept x (hx.lt_size hlexer) (hg.fresh x hx), hbelow.children_eq (hx.lt_size hlexer) hne]
  have hkind : m.forest.kind g.size = .rules := by
    rw [kind_of_label (hmerged.label g.size hdlt), kind_of_label (hgathered.label g.size)]
    rw [Forest.kind, (hbelow.last hc).1]
    rfl
  have hoptions : m.forest.optionsOf lexer = g.optionsOf lexer := by
    refine optionsOf_extended hg.wellFormed ((hkept lexer hlexer hnew).trans hc) (fun c hc => ?_)
      hbelowKept fun x hx => hlabel x (hx.lt_size hlexer)
    rw [List.mem_singleton.mp hc, hkind]
    decide
  have htree := hg.labelTree
  rw [labelTree_eq hg.wellFormed hlexer] at htree
  obtain ⟨hl, hts⟩ := Tree.node.inj htree
  have hold : (g.children lexer).map m.forest.labelTree = (g.children lexer).map g.labelTree := by
    refine List.map_congr_left fun c hcl => ?_
    have hp := hg.wellFormed.mem_children.mp hcl
    have hclt := hg.wellFormed.lt_size_of_child hcl
    refine labelTree_congr (S := fun x => g.Within x c) hg.wellFormed hmerged.wellFormed
      (fun x hx y hy => .of_parent (hg.wellFormed.mem_children.mp hy) hx) (fun x hx => ?_)
      (fun x hx => hlabel x (hx.lt_size hclt)) (.refl g c) hclt
      (Nat.le_of_lt hmlt)
    refine hbelowKept x (hx.trans (.of_parent hp (.refl g lexer))) ?_
    rintro rfl
    exact hg.wellFormed.not_within_of_parent hp hx
  refine ⟨k, d, m, hk, hd, hm, ?_, hoptions⟩
  refine ⟨hmerged.wellFormed, by omega, fun x hx => ?_, Nat.lt_trans hlexer hmlt, ?_, hmlt,
    hkind⟩
  · rw [hlabel x (by omega), hg.label x hx]
  · rw [labelTree_eq hmerged.wellFormed (Nat.lt_trans hlexer hmlt), hlabel lexer hlexer, hl,
      hkept lexer hlexer hnew, hc, List.map_append, hold, hts]
    rfl

theorem WithRules.bareTree {h : Forest} {lexerRules : Nat}
    (hg : WithRules f g lexer l ts lexerRules) (hh : g.Reowned h) :
    h.bareTree lexer =
      .node l.unowned (ts.map (Tree.map Label.unowned) ++ [h.bareTree lexerRules]) := by
  rw [hh.bareTree hg.wellFormed hg.lexer_lt, hh.bareTree hg.wellFormed hg.rules, Forest.bareTree,
    hg.labelTree, Tree.map_node, List.map_append, List.map_singleton]
  rfl

end LexerExtraction

/-- What is said of a lexer can be read from its tree. -/
structure ImplicitLexer.Agrees (lexer : ImplicitLexer) (f : Forest) : Prop where
  text : f.text lexer.root = GrammarType.lexer.rootText
  name : f.sectionName lexer.root = lexer.name
  options : f.optionsOf lexer.root = lexer.options

namespace LexerExtraction

open Forest

variable {f g : Forest} {rules : Nat} {l : Label}

theorem WithRules.sectionName {root lexer lexerRules : Nat}
    (hg : WithRules f g lexer l (lexerTrees f root) lexerRules) :
    g.sectionName lexer = f.sectionName root ++ "Lexer" := by
  rw [sectionName_eq hg.wellFormed hg.lexer_lt, Forest.bareTree, hg.labelTree]
  rfl

theorem split_withRules {own : Grammar} (hf : f.WellFormed)
    (hp : f.parent? rules = some own.root) :
    ∃ g own' lexer lexerRules l, split own rules f = .ok (g, own', lexer, lexerRules) ∧
      WithRules f g lexer.root l (lexerTrees f own.root) lexerRules ∧ lexer.Agrees g := by
  have hactions : ∀ a ∈ lexerActions f own.root, a < f.size := fun a ha =>
    lt_size_of_parent?_eq (mem_lexerActions hf ha).1
  obtain ⟨g, h, l, hplanted, hl, rfl, hsplit⟩ :=
    split_of_copies hf (hf.lt_size_of_parent hp) rules
  have hcopied := Lexed.of_planted hf hplanted
  have hlexed := hcopied.deleteAll own.root hactions
  obtain ⟨k, d, m, hk, hd, hm, hwith, hoptions⟩ :=
    hlexed.addRules (lt_size_of_parent?_eq hp) own
  refine ⟨m.forest, m.grammar, _, _, l, hsplit k d m hk hd hm, hwith, ?_, hwith.sectionName, ?_⟩
  · rw [Forest.text, ← label_labelTree, hwith.labelTree]
    exact hl
  · rw [hoptions, hcopied.optionsOf_deleteAll own.root hactions]

end LexerExtraction

open LexerExtraction

/-- The lexer belongs to the grammar that it is split off, and without rules there is none. -/
theorem GrammarSet.extractLexer_of_split {s : GrammarSet} {id : GrammarId} {g : Forest}
    {own : Grammar} {lexer : ImplicitLexer} {rules lexerRules : Nat}
    (hrules : s.forest.firstChildOfKind? (s.grammar id).root .rules = some rules)
    (hsplit : split (s.grammar id) rules s.forest = .ok (g, own, lexer, lexerRules))
    (hg : g.WellFormed) :
    s.extractLexer id =
      .ok (⟨g.setOwnerBelow lexer.root id, s.grammars.modify id fun _ => own⟩,
        if g.children lexerRules = [] then none else some lexer) := by
  have howned := Forest.reowned_setOwnerBelow hg lexer.root id
  rw [extractLexer]
  simp only [hrules, hsplit, bind, Except.bind, howned.wellFormed.linksAgree, Bool.and_self,
    if_true, Forest.childCount, howned.children, List.length_eq_zero_iff]
  rfl

/-- In `g`, a lexer has been split off the grammar at `root` in `f`. No kind and no text has
changed, and if there is a lexer, its root is `lexer`. -/
structure Forest.Extracted (f g : Forest) (root : NodeId) (lexer : Option NodeId) : Prop where
  wellFormed : g.WellFormed
  size_le : f.size ≤ g.size
  label : ∀ x < f.size, (g.label x).unowned = (f.label x).unowned
  tree : ∀ x, lexer = some x → x < g.size ∧ ∃ l rules, rules.label.kind = .rules ∧
    g.bareTree x = .node l ((lexerTrees f root).map (Tree.map Label.unowned) ++ [rules])

/-- Whenever a lexer is split off, it has all copies that it should have. -/
theorem GrammarSet.extractLexer_extracted {s t : GrammarSet} {id : GrammarId}
    {lexer : Option ImplicitLexer} (hf : s.forest.WellFormed)
    (h : s.extractLexer id = .ok (t, lexer)) :
    s.forest.Extracted t.forest (s.grammar id).root (lexer.map ImplicitLexer.root) := by
  cases hrules : s.forest.firstChildOfKind? (s.grammar id).root .rules with
  | none =>
    rw [extractLexer] at h
    simp only [hrules] at h
    obtain ⟨rfl, rfl⟩ := Prod.mk.inj (Except.ok.inj h)
    exact ⟨hf, Nat.le_refl _, fun _ _ => rfl, fun x hx => by simp at hx⟩
  | some rules =>
    obtain ⟨hp, -⟩ := Forest.of_firstChildOfKind? hf hrules
    obtain ⟨g, own, made, lexerRules, l, hsplit, hwith, -⟩ := split_withRules hf hp
    have howned := Forest.reowned_setOwnerBelow hwith.wellFormed made.root id
    rw [extractLexer_of_split hrules hsplit hwith.wellFormed] at h
    obtain ⟨rfl, hlexer⟩ := Prod.mk.inj (Except.ok.inj h)
    refine ⟨howned.wellFormed, howned.size ▸ hwith.size_le, fun x hx => ?_, fun x hx => ?_⟩
    · obtain ⟨owner, hl⟩ := howned.label x
      rw [hl, hwith.label x hx]
      rfl
    · have hroot : x = made.root := by
        rw [← hlexer] at hx
        split at hx
        · simp at hx
        · exact (Option.some.inj hx).symm
      subst hroot
      refine ⟨howned.size ▸ hwith.lexer_lt, l.unowned,
        (g.setOwnerBelow made.root id).bareTree lexerRules, ?_, ?_⟩
      · rw [Forest.label_bareTree, Forest.unowned_kind, howned.kind, hwith.kind]
      · exact hwith.bareTree howned

end GrammarTrees
