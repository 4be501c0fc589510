import GrammarTrees.Proofs.Forest.Walks
import GrammarTrees.Proofs.LexerExtraction.LexerTree
import GrammarTrees.Proofs.LexerExtraction.Promotion

/-! Where the nodes of a combined grammar are after its lexer has been split off. Token rules and
the named actions of the lexer leave the tree of the grammar, and nothing else in it moves. The
token rules are the only old nodes in the tree of the lexer. -/

namespace GrammarTrees

namespace LexerExtraction

open Forest

variable {f g : Forest} {own : Grammar} {root rules lexer lexerRules x : Nat}

/-- `g` is `f` with the tree of `root` taken apart: its token rules hang below `lexerRules`, and the
named actions of the lexer nowhere. -/
structure Halved (f g : Forest) (root rules lexer lexerRules : NodeId) : Prop where
  wellFormed : g.WellFormed
  size_le : f.size ≤ g.size
  new : f.size ≤ lexer
  label : ∀ x < f.size, g.label x = f.label x
  children : ∀ x < f.size, x ≠ root → x ≠ rules → g.children x = f.children x
  children_rules : g.children rules = (f.children rules).filter (· ∉ tokenRules f rules)
  children_root : g.children root = (f.children root).filter (· ∉ lexerActions f root)
  parent? : ∀ x < f.size, g.parent? x =
    if x ∈ tokenRules f rules then some lexerRules
    else if x ∈ lexerActions f root then none else f.parent? x

theorem tokenRules_eq_of_children (hf : f.WellFormed)
    (hp : f.parent? rules = some root) (hlabel : ∀ x < f.size, g.label x = f.label x)
    (hchildren : ∀ x < f.size, x ≠ root → g.children x = f.children x) :
    tokenRules g rules = tokenRules f rules := by
  have hsame : ∀ {x c : NodeId}, c ∈ f.children x → g.label c = f.label c := fun hc =>
    hlabel _ (hf.lt_size_of_child hc)
  rw [tokenRules, tokenRules, childrenOfKind_congr
    (hchildren rules (lt_size_of_parent?_eq hp) (hf.ne_parent hp)) fun _ hc => hsame hc]
  refine List.filter_congr fun r hr => ?_
  have hrp := ((mem_childrenOfKind hf).mp hr).1
  have hne : r ≠ root := by
    rintro rfl
    exact hf.not_within_of_parent hp (.of_parent hrp (.refl f rules))
  rw [sectionName_congr (hchildren r (lt_size_of_parent?_eq hrp) hne) fun _ hc => hsame hc]

theorem split_halved (hf : f.WellFormed) (hp : f.parent? rules = some own.root) :
    ∃ g count lexer lexerRules,
      split own rules f = .ok (g, { own with literalCount := count }, lexer, lexerRules) ∧
        Halved f g own.root rules lexer.root lexerRules := by
  have hr := hf.lt_size_of_parent hp
  have hrules := lt_size_of_parent?_eq hp
  have hactions : ∀ a ∈ lexerActions f own.root, f.parent? a = some own.root := fun a ha =>
    (mem_lexerActions hf ha).1
  obtain ⟨g, h, l, hplanted, -, hh, hsplit⟩ := split_of_copies hf hr rules
  have hlexed : Lexed f h f.size _ := hh ▸ (Lexed.of_planted hf hplanted).deleteAll own.root
    fun a ha => lt_size_of_parent?_eq (hactions a ha)
  have hpruned : g.Pruned h (lexerActions f own.root) := by
    rw [hh]
    refine pruned_deleteAll hplanted.wellFormed (fun a ha => ?_)
      (((hf.nodup_children own.root).filter _).filter _)
    rw [hplanted.toGrown.parent? (lt_size_of_parent?_eq (hactions a ha)), hactions a ha]
  obtain ⟨k, d, hk, hd, hbelow, hsize, -, hgathered⟩ := hlexed.moveRules hrules
  have hdlt : h.size < d.size := by
    rw [hgathered.size, hsize]
    exact Nat.lt_succ_self h.size
  obtain ⟨m, made, ns, hm, hmerged⟩ :=
    addLiteralRules_merged hgathered.wellFormed hdlt rfl own
  obtain ⟨count, hcount⟩ := grammar_addLiteralRules hm
  refine ⟨m.forest, count, _, _, hcount ▸ hsplit k d m hk hd hm, ?_⟩
  have hle : f.size ≤ h.size := by
    rw [hpruned.size]
    exact hplanted.size_le
  have hklabel : ∀ x < f.size, k.label x = f.label x := by
    intro x hx
    rw [hbelow.label_eq (by omega), hlexed.label x hx]
  have hkchildren : ∀ x < f.size, k.children x =
      (f.children x).filter (· ∉ lexerActions f own.root) := by
    intro x hx
    rw [hbelow.children_eq (by omega) (by omega), hpruned.children,
      hplanted.toGrown.children hx]
  have hkept : ∀ x < f.size, x ≠ own.root → k.children x = f.children x := by
    intro x hx hne
    rw [hkchildren x hx, filter_children_of_ne hf hactions hne]
  rw [tokenRules_eq_of_children hf hp hklabel hkept] at hgathered
  have hdsize : d.size = h.size + 1 := hgathered.size.trans hsize
  have hchildren : ∀ x < f.size, m.forest.children x =
      (k.children x).filter (· ∉ tokenRules f rules) := by
    intro x hx
    have hne : x ≠ h.size := by omega
    rw [hmerged.children x (by omega) hne, hgathered.children, if_neg hne]
  have htokens : ∀ n ∈ tokenRules f rules, f.parent? n = some rules := fun n hn =>
    (mem_tokenRules hf hn).1
  refine ⟨hmerged.wellFormed, ?_, Nat.le_refl _, fun x hx => ?_, fun x hx hne hnr => ?_, ?_, ?_,
    fun x hx => ?_⟩
  · have := hmerged.size_le
    omega
  · rw [hmerged.label x (by omega), hgathered.label, hklabel x hx]
  · rw [hchildren x hx, hkept x hx hne, filter_children_of_ne hf htokens hnr]
  · rw [hchildren rules hrules, hkept rules hrules (hf.ne_parent hp)]
  · rw [hchildren own.root hr, hkchildren own.root hr, List.filter_filter]
    refine List.filter_congr fun c hc => ?_
    have hcr : c ∉ tokenRules f rules := by
      intro hmem
      have hcp := hf.mem_children.mp hc
      rw [htokens c hmem] at hcp
      exact hf.ne_parent hp (Option.some.inj hcp)
    simp [hcr]
  · rw [hmerged.parent? x (by omega), hgathered.parent?, hbelow.parent?_eq (by omega),
      hpruned.parent?, hplanted.toGrown.parent? hx]

/-! ### The two trees -/

/-- No root is hung below a node. -/
theorem Halved.roots (hf : f.WellFormed) (hg : Halved f g root rules lexer lexerRules) :
    ∀ x < f.size, f.parent? x = none → g.parent? x = none := by
  intro x hx hroot
  have hmoved : x ∉ tokenRules f rules := by
    intro hmem
    exact ne_of_parent hroot (mem_tokenRules hf hmem).1 rfl
  rw [hg.parent? x hx, if_neg hmoved, hroot, ite_self]

section Trees

variable (hf : f.WellFormed) (hroot : f.parent? root = none) (hp : f.parent? rules = some root)
  (hg : Halved f g root rules lexer lexerRules)
include hf hroot hp hg

/-- Below a token rule nothing moves. -/
theorem Halved.parent?_of_within (hw : f.Within x rules) (hne : x ≠ rules)
    (hmoved : x ∉ tokenRules f rules) : g.parent? x = f.parent? x := by
  have hx := hw.lt_size (lt_size_of_parent?_eq hp)
  have hstays : x ∉ lexerActions f root := by
    intro hmem
    rcases within_iff.mp hw with he | ⟨p, hxp, hpw⟩
    · exact hne he
    · rw [(mem_lexerActions hf hmem).1] at hxp
      obtain rfl := Option.some.inj hxp
      exact ne_of_parent hroot hp (hpw.eq_of_root hroot)
  rw [hg.parent? x hx, if_neg hmoved, if_neg hstays]

/-- The token rules with all that stands below them are the only old nodes in the tree of the
lexer. -/
theorem Halved.within_lexer_iff (hlexer : g.parent? lexerRules = some lexer) (hx : x < f.size) :
    g.Within x lexer ↔ ∃ r ∈ tokenRules f rules, f.Within x r := by
  constructor
  · intro hw
    induction hw using Relation.ReflTransGen.head_induction_on with
    | refl => exact absurd hx (Nat.not_lt.mpr hg.new)
    | @head x p hxp _ ih =>
      have hpar : g.parent? x = some p := hxp
      rw [hg.parent? x hx] at hpar
      by_cases hmoved : x ∈ tokenRules f rules
      · exact ⟨x, hmoved, .refl f x⟩
      · rw [if_neg hmoved] at hpar
        split at hpar
        · simp at hpar
        · obtain ⟨r, hr, hpr⟩ := ih (hf.lt_size_of_parent hpar)
          exact ⟨r, hr, .of_parent hpar hpr⟩
  · rintro ⟨r, hr, hw⟩
    have htop : ∀ r ∈ tokenRules f rules, g.Within r lexer := by
      intro r hr
      refine .of_parent ?_ (.of_parent hlexer (.refl g lexer))
      rw [hg.parent? r (lt_size_of_parent?_eq (mem_tokenRules hf hr).1), if_pos hr]
    induction hw using Relation.ReflTransGen.head_induction_on with
    | refl => exact htop r hr
    | @head x p hxp hpr ih =>
      have hxp : f.parent? x = some p := hxp
      by_cases hmoved : x ∈ tokenRules f rules
      · exact htop x hmoved
      · have hpw : f.Within p rules :=
          Within.trans hpr (.of_parent (mem_tokenRules hf hr).1 (.refl f rules))
        have hne : x ≠ rules := by
          rintro rfl
          exact hf.not_within_of_parent hxp hpw
        refine .of_parent ?_ (ih (hf.lt_size_of_parent hxp))
        rw [hg.parent?_of_within hf hroot hp (.of_parent hxp hpw) hne hmoved, hxp]

end Trees

/-- In `g`, the lexer at `lexer` with the rule section `lexerRules` has been split off the grammar
at `root` of `f`, whose rule section is `rules`. The rules `made` match literals. -/
structure SplitOff (f g : Forest) (root rules lexer lexerRules : NodeId) (made : List NodeId)
    (owner : GrammarId) : Prop where
  wellFormed : g.WellFormed
  size_le : f.size ≤ g.size
  new : f.size ≤ lexer
  roots : ∀ x < f.size, f.parent? x = none → g.parent? x = none
  lexer_isRoot : g.parent? lexer = none
  children_rules : g.children rules = (f.children rules).filter (· ∉ tokenRules f rules)
  children_lexerRules : g.children lexerRules = made ++ tokenRules f rules
  kind : g.kind lexerRules = .rules
  children_lexer : ∃ copies, g.children lexer = copies ++ [lexerRules] ∧
    copies.map g.bareTree = (lexerTrees f root).map (Tree.map Label.unowned)
  children_root : g.children root = (f.children root).filter (· ∉ lexerActions f root)
  children : ∀ x < f.size, x ≠ root → x ≠ rules → g.children x = f.children x
  unowned : ∀ x < f.size, (g.label x).unowned = (f.label x).unowned
  label : ∀ x < f.size, ¬ g.Within x lexer → g.label x = f.label x
  old : ∀ x < f.size, g.Within x lexer ↔ ∃ r ∈ tokenRules f rules, f.Within x r
  apart : ∀ x, g.Within x lexer → ¬ g.Within x root
  owner : ∀ x, g.Within x lexer → g.owner x = some owner

/-- The rule section of a lexer is its last child. -/
theorem children_eq_append_of_bareTree {h : Forest} {l : Label} {ts : List (Tree Label)}
    (hh : h.WellFormed) (hlt : lexer < h.size) (hsections : h.sections lexer = [lexerRules])
    (hkind : h.kind lexerRules = .rules)
    (htree : h.bareTree lexer = .node l (ts ++ [h.bareTree lexerRules])) :
    ∃ copies, h.children lexer = copies ++ [lexerRules] ∧ copies.map h.bareTree = ts := by
  rw [bareTree_eq hh hlt] at htree
  obtain ⟨copies, rest, hchildren, hcopies, hrest⟩ :=
    List.map_eq_append_iff.mp (Tree.node.inj htree).2
  obtain ⟨c, hc, hlast⟩ := List.map_eq_singleton_iff.mp hrest
  subst hc
  have hckind : h.kind c = .rules := by
    have hlabels := congrArg (fun t => t.label.kind) hlast
    simp only [label_bareTree, unowned_kind, hkind] at hlabels
    exact hlabels
  have hcmem : c ∈ h.sections lexer := by
    rw [Forest.sections, hchildren, List.mem_filter]
    exact ⟨List.mem_append_right _ (List.mem_singleton_self c), by rw [hckind]; rfl⟩
  rw [hsections, List.mem_singleton] at hcmem
  exact ⟨copies, hcmem ▸ hchildren, hcopies⟩

/-- Once its tree belongs to a grammar, the lexer has been split off. -/
theorem Halved.splitOff {l : Label} {made : List NodeId} {ns : List Nat} {owner : GrammarId}
    (hf : f.WellFormed) (hroot : f.parent? own.root = none) (hp : f.parent? rules = some own.root)
    (hg : Halved f g own.root rules lexer lexerRules)
    (hwith : WithRules f g lexer l (lexerTrees f own.root) lexerRules)
    (hpro : Promoted f (g.setOwnerBelow lexer owner) own rules lexer lexerRules made ns) :
    SplitOff f (g.setOwnerBelow lexer owner) own.root rules lexer lexerRules made owner := by
  have howned := reowned_setOwnerBelow hg.wellFormed lexer owner
  have hr := hf.lt_size_of_parent hp
  have hlexer : g.parent? lexerRules = some lexer := by
    rw [← howned.parent?]
    apply ((mem_sections howned.wellFormed).mp _).1
    rw [hpro.lexer_sections]
    exact List.mem_singleton_self lexerRules
  have hisRoot : (g.setOwnerBelow lexer owner).parent? own.root = none := by
    rw [howned.parent?, hg.roots hf _ hr hroot]
  refine ⟨howned.wellFormed, howned.size ▸ hg.size_le, hg.new, fun x hx hxr => ?_, hpro.isRoot, ?_,
    hpro.lexer_rules, hpro.kind, ?_, ?_, fun x hx hne hnr => ?_, fun x hx => ?_, fun x hx hw => ?_,
    fun x hx => ?_, fun x hw hwr => ?_, fun x hw => ?_⟩
  · rw [howned.parent?, hg.roots hf x hx hxr]
  · rw [howned.children, hg.children_rules]
  · exact children_eq_append_of_bareTree howned.wellFormed (howned.size ▸ hwith.lexer_lt)
      hpro.lexer_sections hpro.kind (hwith.bareTree howned)
  · rw [howned.children, hg.children_root]
  · rw [howned.children, hg.children x hx hne hnr]
  · obtain ⟨owner, hl⟩ := howned.label x
    rw [hl, hg.label x hx]
    rfl
  · have hout : x ∉ g.preorder lexer := fun hin =>
      hw (howned.within.mpr (within_of_mem_preorder hg.wellFormed hin))
    rw [Forest.label, node_setOwnerBelow_of_not_mem hout, ← Forest.label, hg.label x hx]
  · rw [howned.within, hg.within_lexer_iff hf hroot hp hlexer hx]
  · -- Both trees would have the same root, but that of the lexer is new.
    have heq := hw.root_unique hwr hpro.isRoot hisRoot
    exact Nat.not_lt.mpr hg.new (heq ▸ hr)
  · have hwg := howned.within.mp hw
    exact owner_setOwnerBelow_of_mem ((mem_preorder hg.wellFormed hwith.lexer_lt).mpr hwg)
      (hwg.lt_size hwith.lexer_lt)

end LexerExtraction

namespace GrammarSet

open LexerExtraction

variable {s : GrammarSet} {id : GrammarId} {rules : Nat}

/-- Splitting the lexer off a grammar with a rule section loses nothing. Each token rule moves to
the lexer, each named action of the lexer is copied there before it is deleted, and all else stays
where it was. -/
theorem extractLexer_splitOff (hf : s.forest.WellFormed)
    (hroot : s.forest.parent? (s.grammar id).root = none)
    (hrules : s.forest.firstChildOfKind? (s.grammar id).root .rules = some rules) :
    ∃ t count lexer lexerRules made,
      s.extractLexer id =
        .ok (t, if made ++ tokenRules s.forest rules = [] then none else some lexer) ∧
      t.grammars = s.grammars.modify id (fun _ => { s.grammar id with literalCount := count }) ∧
      SplitOff s.forest t.forest (s.grammar id).root rules lexer.root lexerRules made id := by
  obtain ⟨hp, hkind⟩ := Forest.of_firstChildOfKind? hf hrules
  obtain ⟨g, count, lexer, lexerRules, hsplit, hhalved⟩ := split_halved hf hp
  obtain ⟨g', own', lexer', lexerRules', made, ns, hsplit', -, hpromoted⟩ :=
    split_promoted hf hroot hp hkind
  obtain ⟨g'', own'', lexer'', lexerRules'', l, hsplit'', hwith, -⟩ := split_withRules hf hp
  rw [hsplit, Except.ok.injEq, Prod.mk.injEq, Prod.mk.injEq, Prod.mk.injEq] at hsplit' hsplit''
  obtain ⟨rfl, rfl, rfl, rfl⟩ := hsplit'
  obtain ⟨rfl, rfl, rfl, rfl⟩ := hsplit''
  have howned := Forest.reowned_setOwnerBelow hhalved.wellFormed lexer.root id
  have hpro := hpromoted _ howned
  refine ⟨⟨g.setOwnerBelow lexer.root id, s.grammars.modify id fun _ => _⟩, count, lexer,
    lexerRules, made, ?_, rfl, hhalved.splitOff hf hroot hp hwith hpro⟩
  rw [extractLexer_of_split hrules hsplit hhalved.wellFormed, ← howned.children, hpro.lexer_rules]

/-- A combined grammar with options, named actions of both kinds, and rules of both kinds. -/
def headersTree : Tree Label :=
  .node (.make .grammar "COMBINED_GRAMMAR")
    [.leaf (.make .id "H"),
     .node (.ofKind .options)
       [.node (.ofKind .assign) [.leaf (.make .id "language"), .leaf (.make .id "Go")],
        .node (.ofKind .assign) [.leaf (.make .id "superClass"), .leaf (.make .id "P")]],
     .node (.ofKind .namedAction)
       [.leaf (.make .id "lexer"), .leaf (.make .id "header"), .leaf (.make .action "{l}")],
     .node (.ofKind .namedAction) [.leaf (.make .id "header"), .leaf (.make .action "{p}")],
     .node (.ofKind .rules)
       [.node (.ofKind .rule)
         [.leaf (.make .ruleRef "a"),
          .node (.ofKind .block)
            [.node (.ofKind .alt) [.leaf (.make .tokenRef "ID"), .leaf (.make .tokenRef "IF")]]],
        literalRule "IF" "'if'",
        literalRule "ID" "'id'"]]

def headers : GrammarSet :=
  ⟨(Forest.empty.plant headersTree).1, #[⟨"H", "H.g4", .combined, 0, .empty, [], 0⟩]⟩

/-- Two rules move. The action with the scope of the lexer goes, and the other one stays. -/
theorem extractLexer_splitOff_headers :
    ∃ t lexer lexerRules made, headers.extractLexer 0 = .ok (t, some lexer) ∧
      SplitOff headers.forest t.forest 0 16 lexer.root lexerRules made 0 := by
  have hplanted := Forest.planted_plant Forest.WellFormed.empty headersTree
  have hroot : headers.forest.parent? (headers.grammar 0).root = none := by decide +kernel
  have hrules : headers.forest.firstChildOfKind? (headers.grammar 0).root .rules = some 16 := by
    decide +kernel
  obtain ⟨t, -, lexer, lexerRules, made, hok, -, hsplit⟩ :=
    extractLexer_splitOff hplanted.wellFormed hroot hrules
  have htokens : tokenRules headers.forest 16 ≠ [] := by decide +kernel
  refine ⟨t, lexer, lexerRules, made, ?_, hsplit⟩
  rwa [if_neg (List.append_ne_nil_of_right_ne_nil made htokens)] at hok

example : (headers.extractLexer 0).map (fun (t, lexer) =>
    (((t.forest.children 0).map t.forest.kind, (t.forest.children 16).map t.forest.sectionName),
      lexer.map fun lexer => (t.forest.children lexer.root).map fun c =>
        (t.forest.kind c, (t.forest.children c).length))) =
      .ok (([.id, .options, .namedAction, .rules], ["a"]),
        some [(.id, 0), (.options, 1), (.namedAction, 3), (.namedAction, 2), (.rules, 2)]) := by
  decide +kernel

end GrammarSet

end GrammarTrees
