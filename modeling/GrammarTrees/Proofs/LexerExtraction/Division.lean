import GrammarTrees.Proofs.Grammar.Literals
import GrammarTrees.Proofs.Integration.Carrying
import GrammarTrees.Proofs.LexerExtraction.Copies

/-! The tree of a combined grammar divided in two. Its token rules stand in the rule section of the
lexer, and all its other rules where they stood. -/

namespace GrammarTrees.LexerExtraction

open Forest

variable {f g k : Forest} {root rules lexer lexerRules x r : Nat} {moved : List NodeId}

def tokenRules (f : Forest) (rules : NodeId) : List NodeId :=
  (f.childrenOfKind rules .rule).filter fun r => isTokenName (f.sectionName r)

/-- `g` is `f` with the rules `moved` in the rule section of a new tree at `lexer`. -/
structure Divided (f g : Forest) (root rules lexer lexerRules : NodeId) (moved : List NodeId) :
    Prop where
  wellFormed : g.WellFormed
  size_le : f.size ≤ g.size
  isRoot : g.parent? root = none
  label : ∀ x < f.size, g.label x = f.label x
  children : ∀ x < f.size, x ≠ root → x ≠ rules → g.children x = f.children x
  rules : g.children rules = (f.children rules).filter (· ∉ moved)
  sections : g.sections root = f.sections root
  lexer_root : g.parent? lexer = none
  lexer_ne : lexer ≠ root
  lexer_sections : g.sections lexer = [lexerRules]
  new : f.size ≤ lexerRules
  kind : g.kind lexerRules = .rules
  lexer_children : g.children lexerRules = moved

theorem mem_tokenRules (h : f.WellFormed) (hr : r ∈ tokenRules f x) :
    f.parent? r = some x ∧ f.kind r = .rule :=
  (mem_childrenOfKind h).mp (List.mem_of_mem_filter hr)

theorem nodup_tokenRules (h : f.WellFormed) (x : NodeId) : (tokenRules f x).Nodup :=
  ((h.nodup_children x).filter _).filter _

theorem Prepared.children_rules {secs : List NodeId} (hroot : f.parent? root = none)
    (hp : f.parent? rules = some root) (hg : Prepared f g root lexer secs) :
    g.children rules = f.children rules :=
  hg.children rules (lt_size_of_parent?_eq hp) (ne_of_parent hroot hp)

theorem Prepared.tokenRules_eq {secs : List NodeId} (hf : f.WellFormed)
    (hroot : f.parent? root = none) (hp : f.parent? rules = some root)
    (hg : Prepared f g root lexer secs) : tokenRules g rules = tokenRules f rules := by
  have hlabel : ∀ {x c : NodeId}, c ∈ f.children x → g.label c = f.label c := fun hc =>
    hg.label _ (hf.lt_size_of_child hc)
  rw [tokenRules, tokenRules,
    childrenOfKind_congr (hg.children_rules hroot hp) (fun _ hc => hlabel hc)]
  apply List.filter_congr
  intro r hr
  have hrp := ((mem_childrenOfKind hf).mp hr).1
  rw [sectionName_congr (hg.children r (lt_size_of_parent?_eq hrp) (ne_of_parent hroot hrp))
    fun _ hc => hlabel hc]

/-- Moving the token rules to a new rule section of the lexer. -/
theorem Prepared.divided (hf : f.WellFormed) (hroot : f.parent? root = none)
    (hp : f.parent? rules = some root) (hkind : f.kind rules = .rules)
    (hg : Prepared f g root lexer []) :
    ∃ k l, (g.alloc (.ofKind .rules)).1.pushChild lexer g.size = .ok k ∧
      k.pushChildren g.size (tokenRules k rules) = .ok l ∧
      Divided f l root rules lexer g.size (tokenRules f rules) := by
  have hr := hf.lt_size_of_parent hp
  obtain ⟨k, hk, hbelow, hsize, hc, hchildren⟩ :=
    (planted_alloc hg.wellFormed (.ofKind .rules)).pushChild hg.wellFormed hg.lexer_lt
  have hprepared : Prepared f k root lexer [g.size] :=
    hg.plant hr hg.new hbelow hc (if_pos ⟨rfl, rfl⟩)
  have hrules := hprepared.children_rules hroot hp
  obtain ⟨hlabel, hnil⟩ := hbelow.last hc
  have hnew : rules ≠ g.size :=
    Nat.ne_of_lt (Nat.lt_of_lt_of_le (lt_size_of_parent?_eq hp) hg.size_le)
  have hlexer : k.parent? g.size = some lexer := by
    apply hprepared.wellFormed.mem_children.mp
    rw [hc]
    simp
  have hkroot := hprepared.roots root hr hroot
  have hrulesroot : k.parent? rules = some root := by
    have hmem : rules ∈ k.sections root := by
      rw [hprepared.sections]
      exact (mem_sections hf).mpr ⟨hp, by rw [hkind]; rfl⟩
    exact ((mem_sections hprepared.wellFormed).mp hmem).1
  have hne : lexer ≠ root := Nat.ne_of_gt (Nat.lt_of_lt_of_le hr hg.new)
  have hapart : ¬ k.Within g.size rules :=
    not_within_of_roots (.of_parent hlexer (.refl k lexer)) (.of_parent hrulesroot (.refl k root))
      hprepared.isRoot hkroot hne
  have hnodes : ∀ r ∈ tokenRules f rules, k.parent? r = some rules := by
    intro r hr
    apply hprepared.wellFormed.mem_children.mp
    rw [hrules]
    exact hf.mem_children.mpr (mem_tokenRules hf hr).1
  obtain ⟨l, hl, hgathered⟩ := pushChildren_eq_ok hprepared.wellFormed
    (lt_size_of_parent?_eq hlexer) hapart hnodes (nodup_tokenRules hf rules)
  have hroots : ∀ x, k.parent? x = none → l.sections x = k.sections x := by
    intro x hx
    have hsame := hgathered.children_of_root hprepared.wellFormed hnodes (by simp [hlexer])
      (by simp [hrulesroot]) hx
    rw [Forest.sections, hsame, Forest.sections]
    simp only [hgathered.kind]
  refine ⟨k, l, hk, ?_, hgathered.wellFormed, hgathered.size ▸ hprepared.size_le,
    hgathered.roots hnodes hkroot, fun x hx => ?_, fun x hx hxroot hxrules => ?_, ?_, ?_,
    hgathered.roots hnodes hprepared.isRoot, hne, ?_, hg.size_le, ?_, ?_⟩
  · rw [hprepared.tokenRules_eq hf hroot hp]
    exact hl
  · rw [hgathered.label, hprepared.label x hx]
  · rw [hgathered.children_of_ne hprepared.wellFormed hnodes
      (Nat.ne_of_lt (Nat.lt_of_lt_of_le hx hg.size_le)) hxrules, hprepared.children x hx hxroot]
  · rw [hgathered.children, if_neg hnew, hrules]
  · rw [hroots root hkroot, hprepared.sections]
  · rw [hroots lexer hprepared.isRoot, hprepared.lexer_sections]
  · rw [hgathered.kind, Forest.kind, hlabel]
    rfl
  · rw [hgathered.children, if_pos rfl, List.map_eq_nil_iff.mp hnil, List.nil_append]

/-! ### The stages of a split -/

/-- The named actions that only a lexer keeps. -/
def lexerActions (f : Forest) (root : NodeId) : List NodeId :=
  (f.childrenOfKind root .namedAction).filter (isLexerAction f)

theorem mem_lexerActions (h : f.WellFormed) {a : NodeId} (ha : a ∈ lexerActions f root) :
    f.parent? a = some root ∧ f.kind a = .namedAction :=
  (mem_childrenOfKind h).mp (List.mem_of_mem_filter ha)

theorem lexerActions_congr (hf : f.WellFormed) (hg : f.Grown g) (root : NodeId) :
    (f.childrenOfKind root .namedAction).filter (isLexerAction g) = lexerActions f root := by
  refine List.filter_congr fun a ha => ?_
  have hlt := lt_size_of_parent?_eq ((mem_childrenOfKind hf).mp ha).1
  rw [isLexerAction, isLexerAction, child?, child?, hg.children hlt]
  cases hc : (f.children a)[0]? with
  | none => rfl
  | some c =>
    have hclt := hf.lt_size_of_child (List.mem_of_getElem? hc)
    rw [Option.any_some, Option.any_some, Forest.text, hg.label hclt, ← Forest.text]

/-- What is left of a split once the copies have been made: the named actions of the lexer are taken
away, its rule section is made, the token rules are moved there, and rules are made for literals. -/
theorem split_of_copies {own : Grammar} (hf : f.WellFormed) (hr : own.root < f.size)
    (rules : NodeId) :
    ∃ g h l, f.Planted g f.size (.node l (lexerTrees f own.root)) ∧
      l.text = GrammarType.lexer.rootText ∧
      h = (lexerActions f own.root).foldl (fun f a => (f.deleteChild own.root a).1) g ∧
      ∀ k d m, (h.alloc (.ofKind .rules)).1.pushChild f.size h.size = .ok k →
        k.pushChildren h.size (tokenRules k rules) = .ok d →
        addLiteralRules own h.size d = .ok m →
        split own rules f = .ok (m.forest, m.grammar,
          ⟨f.size, f.sectionName own.root ++ "Lexer", g.optionsOf f.size⟩, h.size) := by
  obtain ⟨g₁, g₂, g₃, l, h₁, h₂, h₃, hl, hplanted⟩ := copies_planted hf hr
  refine ⟨g₃, _, l, hplanted, hl, rfl, fun k d m hk hd hm => ?_⟩
  rw [tokenRules] at hd
  rw [← lexerActions_congr hf hplanted.toGrown] at hk hd hm ⊢
  rw [split]
  simp only [bind, Except.bind, h₁, h₂, h₃, alloc_snd, hk, hd, hm]
  rfl

/-! ### The rules of the grammar -/

theorem mem_rules {own : Grammar} (h : f.WellFormed) (hr : r ∈ own.rules f) :
    ∃ x ∈ f.sections own.root, f.parent? r = some x ∧ f.kind r = .rule := by
  rw [rules_eq_flatMap] at hr
  obtain ⟨x, hx, hrx⟩ := List.mem_flatMap.mp hr
  exact ⟨x, hx, (mem_childrenOfKind h).mp hrx⟩

theorem mem_rules_of_mem_tokenRules {own : Grammar} (h : f.WellFormed)
    (hp : f.parent? rules = some own.root) (hkind : f.kind rules = .rules)
    (hr : r ∈ tokenRules f rules) : r ∈ own.rules f := by
  rw [rules_eq_flatMap]
  refine List.mem_flatMap.mpr ⟨rules, (mem_sections h).mpr ⟨hp, by rw [hkind]; rfl⟩, ?_⟩
  exact List.mem_of_mem_filter hr

section Grammar

variable {own : Grammar} (hf : f.WellFormed) (hroot : f.parent? own.root = none)
  (hd : Divided f g own.root rules lexer lexerRules (tokenRules f rules))
include hf hroot hd

/-- The rules that stay are all but the token rules of the section. -/
theorem Divided.own_rules :
    own.rules g = (own.rules f).filter (· ∉ tokenRules f rules) := by
  have hlabel : ∀ {x c : NodeId}, c ∈ f.children x → g.label c = f.label c := fun hc =>
    hd.label _ (hf.lt_size_of_child hc)
  rw [rules_eq_flatMap, rules_eq_flatMap, hd.sections, List.filter_flatMap]
  refine List.flatMap_congr fun x hx => ?_
  obtain ⟨hp, -⟩ := (mem_sections hf).mp hx
  by_cases hrules : x = rules
  · subst hrules
    rw [childrenOfKind, hd.rules, List.filter_filter, childrenOfKind, List.filter_filter]
    apply List.filter_congr
    intro c hc
    rw [kind_of_label (hlabel hc), Bool.and_comm]
  · have hsame := hd.children x (lt_size_of_parent?_eq hp) (ne_of_parent hroot hp) hrules
    rw [childrenOfKind_congr hsame (fun _ hc => hlabel hc), eq_comm, List.filter_eq_self]
    intro c hc
    rw [decide_eq_true_eq]
    intro hmem
    have hcx := ((mem_childrenOfKind hf).mp hc).1
    rw [(mem_tokenRules hf hmem).1] at hcx
    exact hrules (Option.some.inj hcx).symm

theorem Divided.mem_rules_of_mem (hr : r ∈ own.rules g) : r ∈ own.rules f := by
  rw [hd.own_rules hf hroot] at hr
  exact List.mem_of_mem_filter hr

/-- Rules are not changed where they stand or where they are moved. -/
theorem Divided.bareTree (hp : f.parent? rules = some own.root) (hkind : f.kind rules = .rules)
    (hr : r ∈ own.rules f) : g.bareTree r = f.bareTree r := by
  obtain ⟨x, hx, hrx, -⟩ := mem_rules hf hr
  have hpart : f.RulePart r := ⟨x, ruleSection_of_mem hf hroot hx, hrx⟩
  have hsection : f.RuleSection rules := ⟨by rw [hkind]; rfl, own.root, hp, hroot⟩
  have hlt := lt_size_of_parent?_eq hrx
  rw [Forest.bareTree, Forest.bareTree]
  congr 1
  refine labelTree_congr (S := fun y => f.Within y r) hf hd.wellFormed
    (fun y hy c hc => .of_parent (hf.mem_children.mp hc) hy) (fun y hy => ?_)
    (fun y hy => hd.label y (hy.lt_size hlt)) (.refl f r) hlt hd.size_le
  refine hd.children y (hy.lt_size hlt) ?_ (hpart.ne_ruleSection hy hsection)
  rintro rfl
  exact ne_of_parent hroot hrx (hy.eq_of_root hroot)

end Grammar

end GrammarTrees.LexerExtraction
