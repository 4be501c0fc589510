import GrammarTrees.Integration.Tokens
import GrammarTrees.Proofs.Integration.Shifting

/-! Taking over channels and tokens always succeeds, also when a grammar is merged with itself. The
tokens of the import follow those of the grammar, and so do its channels with new names. The
sections that hold rules and those of other kinds are left alone. -/

namespace GrammarTrees

namespace Forest

variable {f g k : Forest} {T : NodeId → Prop} {kind : Kind} {node root source x : Nat}

/-- The nodes in the first section of the given kind. -/
def sectionItems (f : Forest) (root : NodeId) (kind : Kind) : List NodeId :=
  ((f.firstChildOfKind? root kind).map f.children).getD []

theorem sectionItems_of_some (h : f.firstChildOfKind? root kind = some x) :
    f.sectionItems root kind = f.children x := by
  rw [sectionItems, h]
  rfl

theorem sectionItems_of_none (h : f.firstChildOfKind? root kind = none) :
    f.sectionItems root kind = [] := by
  rw [sectionItems, h]
  rfl

def channelNames (f : Forest) (root : NodeId) : List String :=
  (f.sectionItems root .channels).map f.text

theorem Planted.leaf {l : Label} (hg : f.Planted g node (.leaf l)) :
    g.label node = l ∧ g.children node = [] := by
  have htree := hg.labelTree_root
  rw [labelTree_eq hg.wellFormed hg.root_lt] at htree
  exact ⟨(Tree.node.inj htree).1, List.map_eq_nil_iff.mp (Tree.node.inj htree).2⟩

/-- A new section is the first one if there was none of its kind. -/
theorem firstChildOfKind?_insertIdx {l : List NodeId} {i : Nat} (hi : i ≤ l.length)
    (hg : g.children root = l.insertIdx i node) (hl : ∀ c ∈ l, g.kind c ≠ kind)
    (hnode : g.kind node = kind) : g.firstChildOfKind? root kind = some node := by
  have hnone : l.filter (fun c => decide (g.kind c = kind)) = [] :=
    List.filter_eq_nil_iff.mpr fun c hc => by simp [hl c hc]
  have hperm := (List.perm_insertIdx node l hi).filter fun c => decide (g.kind c = kind)
  rw [List.filter_cons_of_pos (by simp [hnode]), hnone, List.perm_singleton] at hperm
  rw [firstChildOfKind?, hg, ← List.head?_filter, hperm]
  rfl

/-- A new section is hung below a root, right after the first child. -/
theorem attach_new_eq_ok (hT : f.Rooted T) (hk : f.Grown k) (hn : f.size ≤ node)
    (hn' : node < k.size) (hfree : k.parent? node = none) (hkind : k.kind node = kind)
    (hholds : kind.holdsRules = false) (ht : T root) (hx : f.parent? x = some root)
    (hnone : f.firstChildOfKind? root kind = none) (source : NodeId) :
    ∃ g, k.attach root node 1 = .ok g ∧ k.Moved g root node 1 ∧
      Shifted kind root source f g ∧ f.Apart g ∧ g.firstChildOfKind? root kind = some node := by
  have hlt := hT.lt_size root ht
  have hr := hT.isRoot root ht
  have hnot := hk.wellFormed.not_mem_children_of_root (p := root) hfree
  have hindex : 1 ≤ (f.children root).length :=
    List.length_pos_of_mem (hT.wellFormed.mem_children.mpr hx)
  have hfits : 1 ≤ ((k.children root).erase node).length := by
    rw [List.erase_of_not_mem hnot, hk.children hlt]
    exact hindex
  obtain ⟨g, hg, hmoved⟩ := insertChild_eq_ok hk.wellFormed (Nat.lt_of_lt_of_le hlt hk.size_le) hn'
    (hk.not_within hT.wellFormed hlt hn) hfits
  have hshifted : Shifted kind root source f g :=
    hmoved.shifted hT.wellFormed hr hlt hk (.refl hk.wellFormed node) hn hfree
      (.inl ⟨rfl, hkind⟩) (by simp)
  refine ⟨g, (attach_of_root hfree).trans hg, hmoved, hshifted, ?_, ?_⟩
  · exact hmoved.apart hk hT.wellFormed (outside_of_root hr) hn (.inr ⟨rfl, hkind ▸ hholds⟩)
  · refine firstChildOfKind?_insertIdx (l := f.children root) hindex ?_ (fun c hc he => ?_)
      ((hmoved.kind node).trans hkind)
    · rw [hmoved.children_of_grown hk hT.wellFormed hn hlt, if_pos rfl]
    · rw [firstChildOfKind?, List.find?_eq_none] at hnone
      refine hnone c hc ?_
      rw [decide_eq_true_eq, ← he, hshifted.kind_eq (hT.wellFormed.lt_size_of_child hc)]

end Forest

namespace Integration

open Forest

variable {f g k : Forest} {T : NodeId → Prop} {root importRoot x : Nat}
  {channels tokens imported : Nat}

/-! ### Channels -/

/-- The names with a further one, unless it is among them. -/
theorem filter_singleton_not_mem (names : List String) (name : String) :
    [name].filter (· ∉ names) = if name ∈ names then [] else [name] := by
  rw [List.filter_singleton]
  by_cases h : name ∈ names <;> simp [h]

/-- What is new to a list after one name and then others. -/
theorem append_filter_not_mem_cons {names new : List String} {name : String} (hnew : name ∉ new) :
    (names ++ [name].filter (· ∉ names)) ++
        new.filter (· ∉ names ++ [name].filter (· ∉ names)) =
      names ++ (name :: new).filter (· ∉ names) := by
  have hsame : new.filter (· ∉ names ++ [name].filter (· ∉ names)) = new.filter (· ∉ names) := by
    refine List.filter_congr fun n hn => ?_
    have hne : n ≠ name := fun he => hnew (he ▸ hn)
    simp [hne]
  rw [hsame, List.append_assoc, ← List.filter_append, List.singleton_append]

theorem addChannel_eq_ok (hT : f.Rooted T) (ht : T root) (hp : f.parent? channels = some root)
    (hk : f.kind channels = .channels) (grammar : GrammarId) (channel : NodeId) :
    ∃ g, addChannel grammar channels f channel = .ok g ∧ Shifted .channels root root f g ∧
      f.Apart g ∧ g.children root = f.children root ∧
      (g.children channels).map g.text = (f.children channels).map f.text ++
        [f.text channel].filter (· ∉ (f.children channels).map f.text) := by
  have hmem : (f.children channels).any (fun c => f.text c = f.text channel) = true ↔
      f.text channel ∈ (f.children channels).map f.text := by
    simp
  rw [addChannel]
  split
  · rename_i hany
    refine ⟨f, rfl, .refl hT.wellFormed .., .refl hT.wellFormed, rfl, ?_⟩
    rw [filter_singleton_not_mem, if_pos (hmem.mp hany), List.append_nil]
  · rename_i hany
    have hplanted := planted_alloc_relabel hT.wellFormed (f.label channel) fun l =>
      { l with owner := some grammar }
    obtain ⟨hlabel, -⟩ := hplanted.leaf
    have hgrown := hplanted.toGrown
    have hfree := hplanted.isRoot
    have hlt : channels < f.size := lt_size_of_parent?_eq hp
    have hr := hT.isRoot root ht
    obtain ⟨g, hg, hmoved⟩ := pushChild_eq_ok hgrown.wellFormed
      (Nat.lt_of_lt_of_le hlt hgrown.size_le) hplanted.root_lt
      (hgrown.not_within hT.wellFormed hlt (Nat.le_refl _))
    have hshifted : Shifted .channels root root f g :=
      Moved.shifted hT.wellFormed hr (hT.lt_size root ht) hgrown (.refl hgrown.wellFormed f.size)
        hmoved (Nat.le_refl _) hfree (.inr ⟨hp, hk⟩) (by simp)
    refine ⟨g, hg, hshifted, ?_, ?_, ?_⟩
    · exact hmoved.apart hgrown hT.wellFormed (outside_of_kind hp hr (by rw [hk]; rfl))
        (Nat.le_refl _) (.inl (by simp [hp]))
    · rw [hmoved.children_of_grown hgrown hT.wellFormed (Nat.le_refl _) (hT.lt_size root ht),
        if_neg (ne_of_parent hr hp).symm]
    · rw [hmoved.children, if_pos rfl,
        List.erase_of_not_mem (hgrown.wellFormed.not_mem_children_of_root hfree),
        hgrown.children hlt, List.map_append, filter_singleton_not_mem, if_neg (hmem.not.mp hany)]
      congr 1
      · refine List.map_congr_left fun c hc => ?_
        exact text_of_label (hshifted.label c (hT.wellFormed.lt_size_of_child hc))
      · rw [List.map_singleton, text_of_label (hmoved.label f.size), Forest.text, hlabel]
        rfl

theorem addChannels_eq_ok (hT : f.Rooted T) (ht : T root) (hp : f.parent? channels = some root)
    (hk : f.kind channels = .channels) (grammar : GrammarId) {cs : List NodeId}
    (hcs : ∀ c ∈ cs, c < f.size) :
    ∃ g, cs.foldlM (addChannel grammar channels) f = .ok g ∧ Shifted .channels root root f g ∧
      f.Apart g ∧ g.children root = f.children root ∧
      ((cs.map f.text).Nodup → (g.children channels).map g.text =
        (f.children channels).map f.text ++
          (cs.map f.text).filter (· ∉ (f.children channels).map f.text)) := by
  induction cs generalizing f with
  | nil =>
    exact ⟨f, rfl, .refl hT.wellFormed .., .refl hT.wellFormed, rfl, fun _ => by simp⟩
  | cons c cs ih =>
    rw [List.forall_mem_cons] at hcs
    obtain ⟨k, hadd, hfk, hapart, hroot, htexts⟩ := addChannel_eq_ok hT ht hp hk grammar c
    have hlt := lt_size_of_parent?_eq hp
    obtain ⟨g, hg, hkg, hrest, hroot', htexts'⟩ := ih ((hfk.steady hT ht ht (by decide)).rooted hT)
      ((hfk.hangs channels hlt).mpr hp) ((hfk.kind_eq hlt).trans hk)
      fun c hc => Nat.lt_of_lt_of_le (hcs.2 c hc) hfk.size_le
    refine ⟨g, ?_, hfk.trans hT ht hkg, hapart.trans hT.wellFormed hrest, hroot'.trans hroot,
      fun hnodup => ?_⟩
    · rw [List.foldlM_cons, hadd]
      exact hg
    · have hsame : cs.map k.text = cs.map f.text :=
        List.map_congr_left fun c hc => text_of_label (hfk.label c (hcs.2 c hc))
      rw [List.map_cons, List.nodup_cons] at hnodup
      rw [htexts' (hsame ▸ hnodup.2), htexts, hsame, List.map_cons,
        append_filter_not_mem_cons hnodup.1]

/-- The texts of the children are those of the tree. -/
theorem texts_of_labelTree {a b : Nat} (hf : f.WellFormed) (hg : g.WellFormed) (ha : a < f.size)
    (hb : b < g.size) (h : g.labelTree b = f.labelTree a) :
    (g.children b).map g.text = (f.children a).map f.text := by
  rw [labelTree_eq hf ha, labelTree_eq hg hb] at h
  have htexts := congrArg (List.map fun t => t.label.text) (Tree.node.inj h).2
  simp only [List.map_map, Function.comp_def, label_labelTree] at htexts
  exact htexts

/-- A grammar without channels gets those of the import in a section of its own. -/
theorem attachChannels_eq_ok (hT : f.Rooted T) (ht : T root) (hx : f.parent? x = some root)
    (hnone : f.firstChildOfKind? root .channels = none)
    (himported : f.firstChildOfKind? importRoot .channels = some imported) (grammar : GrammarId) :
    ∃ g, ((f.copyTree imported).1.setOwnerBelow (f.copyTree imported).2 grammar).attach root
        (f.copyTree imported).2 1 = .ok g ∧ Shifted .channels root root f g ∧ f.Apart g ∧
      g.channelNames root = f.channelNames importRoot := by
  obtain ⟨hi, hik⟩ := of_firstChildOfKind? hT.wellFormed himported
  have hplanted := planted_copyTree hT.wellFormed imported
  have howned := reowned_setOwnerBelow hplanted.wellFormed (f.copyTree imported).2 grammar
  have hgrown := hplanted.toGrown.setOwnerBelow hT.wellFormed
    (Nat.le_of_eq hplanted.root_eq.symm) grammar
  have htexts := texts_of_labelTree hT.wellFormed hplanted.wellFormed
    (lt_size_of_parent?_eq hi) hplanted.root_lt hplanted.labelTree_root
  generalize (f.copyTree imported).1.setOwnerBelow (f.copyTree imported).2 grammar = k at *
  have hkind : k.kind (f.copyTree imported).2 = .channels := by
    rw [howned.kind, Forest.kind, ← label_labelTree, hplanted.labelTree_root, label_labelTree,
      ← Forest.kind, hik]
  obtain ⟨g, hg, hmoved, hshifted, hapart, hfirst⟩ := attach_new_eq_ok hT hgrown
    (Nat.le_of_eq hplanted.root_eq.symm) (howned.size ▸ hplanted.root_lt)
    ((howned.parent? _).trans hplanted.isRoot) hkind rfl ht hx hnone root
  have hne : (f.copyTree imported).2 ≠ root := by
    rw [hplanted.root_eq]
    exact Nat.ne_of_gt (hT.lt_size root ht)
  have hfree := (howned.parent? (f.copyTree imported).2).trans hplanted.isRoot
  refine ⟨g, hg, hshifted, hapart, ?_⟩
  rw [channelNames, sectionItems_of_some hfirst,
    hmoved.children_of_free howned.wellFormed hfree hne, howned.children, channelNames,
    sectionItems_of_some himported, ← htexts]
  refine List.map_congr_left fun c _ => ?_
  obtain ⟨owner, hl⟩ := howned.label c
  rw [text_of_label (hmoved.label c), Forest.text, hl, ← Forest.text]

theorem mergeChannels_eq_ok (hT : f.Rooted T) (ht : T root) (hx : f.parent? x = some root)
    (grammar : GrammarId) (importRoot : NodeId) :
    ∃ g, mergeChannels grammar root importRoot f = .ok g ∧ Shifted .channels root root f g ∧
      f.Apart g ∧ ((f.channelNames importRoot).Nodup → g.channelNames root =
        f.channelNames root ++
          (f.channelNames importRoot).filter (· ∉ f.channelNames root)) := by
  rw [mergeChannels]
  split
  · rename_i hnone
    refine ⟨f, rfl, .refl hT.wellFormed .., .refl hT.wellFormed, fun _ => ?_⟩
    have hnil : f.channelNames importRoot = [] := by
      rw [channelNames, sectionItems_of_none hnone]
      rfl
    rw [hnil, List.filter_nil, List.append_nil]
  rename_i imported himported
  split
  · rename_i channels hchannels
    obtain ⟨hc, hk⟩ := of_firstChildOfKind? hT.wellFormed hchannels
    have hcs : ∀ c ∈ f.children imported, c < f.size := fun c hc =>
      hT.wellFormed.lt_size_of_child hc
    obtain ⟨g, hg, hshifted, hapart, hroot, htexts⟩ := addChannels_eq_ok hT ht hc hk grammar hcs
    refine ⟨g, hg, hshifted, hapart, fun hnodup => ?_⟩
    have hfirst : g.firstChildOfKind? root .channels = some channels := by
      rw [← hchannels]
      exact firstChildOfKind?_congr hroot
        (fun c hc => hshifted.label c (hT.wellFormed.lt_size_of_child hc)) .channels
    rw [channelNames, sectionItems_of_some himported] at hnodup
    rw [channelNames, sectionItems_of_some hfirst, channelNames, sectionItems_of_some hchannels,
      channelNames, sectionItems_of_some himported, htexts hnodup]
  · rename_i hnone
    obtain ⟨g, hg, hshifted, hapart, hnames⟩ :=
      attachChannels_eq_ok hT ht hx hnone himported grammar
    refine ⟨g, hg, hshifted, hapart, fun _ => ?_⟩
    have hnil : f.channelNames root = [] := by
      rw [channelNames, sectionItems_of_none hnone]
      rfl
    rw [hnames, hnil]
    simp

/-! ### Tokens -/

theorem pushTokens_eq_ok (hT : f.Rooted T) (ht : T root) (hi : T importRoot)
    (hp : f.parent? tokens = some root) (hk : f.kind tokens = .tokensSpec)
    (hip : f.parent? imported = some importRoot) (hik : f.kind imported = .tokensSpec) :
    ∃ g, f.pushChildren tokens (f.children imported) = .ok g ∧
      f.Collected g tokens (f.children imported) ∧ Shifted .tokensSpec root importRoot f g ∧
      f.Apart g := by
  have hr := hT.isRoot root ht
  have hnodes : ∀ n ∈ f.children imported, f.parent? n = some imported := fun n hn =>
    hT.wellFormed.mem_children.mp hn
  have hpart : f.Part .tokensSpec root importRoot imported := ⟨hik, .inr hip⟩
  obtain ⟨g, hg, hcollected, hshifted⟩ := pushChildren_shifted hT.wellFormed hr hk hp hpart hnodes
    (hT.wellFormed.nodup_children imported)
  refine ⟨g, hg, hcollected, hshifted, hcollected.apart hT.wellFormed (by simp [hp])
    (outside_of_kind hp hr (by rw [hk]; rfl)) fun n hn => ?_⟩
  exact ⟨imported, hnodes n hn, by simp [hip],
    outside_of_kind hip (hT.isRoot importRoot hi) (by rw [hik]; rfl)⟩

/-- The tokens of the import follow those of the grammar. -/
theorem Collected.sectionItems_tokens (hf : f.WellFormed) (hr : f.parent? root = none)
    (hne : importRoot ≠ root) (hi : f.parent? importRoot = none)
    (hp : f.firstChildOfKind? root .tokensSpec = some tokens)
    (hip : f.firstChildOfKind? importRoot .tokensSpec = some imported)
    (hg : f.Collected g tokens (f.children imported)) :
    g.sectionItems root .tokensSpec =
        f.sectionItems root .tokensSpec ++ f.sectionItems importRoot .tokensSpec ∧
      g.sectionItems importRoot .tokensSpec = [] := by
  obtain ⟨htp, -⟩ := of_firstChildOfKind? hf hp
  obtain ⟨hxp, -⟩ := of_firstChildOfKind? hf hip
  have hnodes : ∀ n ∈ f.children imported, f.parent? n = some imported := fun n hn =>
    hf.mem_children.mp hn
  have hroots : ∀ t, f.parent? t = none →
      g.firstChildOfKind? t .tokensSpec = f.firstChildOfKind? t .tokensSpec := by
    intro t ht
    refine firstChildOfKind?_congr (hg.children_of_ne hf (ne_of_parent ht htp).symm
      fun n hn hnt => ?_) (fun c _ => hg.label c) .tokensSpec
    rw [hnodes n hn] at hnt
    exact ne_of_parent ht hxp (Option.some.inj hnt)
  have hdistinct : imported ≠ tokens := by
    rintro rfl
    exact hne (Option.some.inj (hxp.symm.trans htp))
  rw [sectionItems_of_some ((hroots root hr).trans hp), sectionItems_of_some hp,
    sectionItems_of_some hip, sectionItems_of_some ((hroots importRoot hi).trans hip)]
  constructor
  · rw [hg.children, if_pos rfl, filter_children_of_ne hf hnodes hdistinct.symm]
  · rw [hg.children, if_neg hdistinct, List.append_nil, List.filter_eq_nil_iff]
    simp

/-- A grammar without tokens gets an empty section for them. -/
theorem attachTokens_eq_ok (hT : f.Rooted T) (ht : T root) (hx : f.parent? x = some root)
    (hnone : f.firstChildOfKind? root .tokensSpec = none) (grammar : GrammarId)
    (importRoot : NodeId) :
    ∃ g, ((f.alloc (.ofKind .tokensSpec)).1.setOwner f.size grammar).attach root f.size 1 =
        .ok g ∧ Shifted .tokensSpec root importRoot f g ∧ f.Apart g ∧
      g.firstChildOfKind? root .tokensSpec = some f.size ∧ g.sectionItems root .tokensSpec = [] ∧
      ∀ x < f.size, x ≠ root → g.children x = f.children x := by
  have hplanted := planted_alloc_relabel hT.wellFormed (.ofKind .tokensSpec) fun l =>
    { l with owner := some grammar }
  obtain ⟨hlabel, hnil⟩ := hplanted.leaf
  have hkind : Forest.kind _ f.size = .tokensSpec := congrArg Label.kind hlabel
  obtain ⟨g, hg, hmoved, hshifted, hapart, hfirst⟩ := attach_new_eq_ok hT hplanted.toGrown
    (Nat.le_refl _) hplanted.root_lt hplanted.isRoot hkind rfl ht hx hnone importRoot
  refine ⟨g, hg, hshifted, hapart, hfirst, ?_, fun x hx hne => ?_⟩
  · rw [sectionItems_of_some hfirst, hmoved.children_of_free hplanted.wellFormed hplanted.isRoot
      (Nat.ne_of_gt (hT.lt_size root ht)), hnil]
  · rw [hmoved.children_of_free hplanted.wellFormed hplanted.isRoot hne,
      hplanted.toGrown.children hx]

theorem mergeTokens_eq_ok (hT : f.Rooted T) (ht : T root) (hi : T importRoot)
    (hx : f.parent? x = some root) (grammar : GrammarId) :
    ∃ g, mergeTokens grammar root importRoot f = .ok g ∧
      Shifted .tokensSpec root importRoot f g ∧ f.Apart g ∧
      (importRoot ≠ root → g.sectionItems root .tokensSpec =
          f.sectionItems root .tokensSpec ++ f.sectionItems importRoot .tokensSpec ∧
        g.sectionItems importRoot .tokensSpec = []) := by
  rw [mergeTokens]
  split
  · rename_i hnone
    refine ⟨f, rfl, .refl hT.wellFormed .., .refl hT.wellFormed, fun _ => ?_⟩
    rw [sectionItems_of_none hnone, List.append_nil]
    exact ⟨rfl, rfl⟩
  rename_i imported himported
  obtain ⟨hip, hik⟩ := of_firstChildOfKind? hT.wellFormed himported
  split
  · rename_i tokens htokens
    obtain ⟨hp, hk⟩ := of_firstChildOfKind? hT.wellFormed htokens
    obtain ⟨g, hg, hcollected, hshifted, hapart⟩ := pushTokens_eq_ok hT ht hi hp hk hip hik
    exact ⟨g, hg, hshifted, hapart, fun hne => Collected.sectionItems_tokens hT.wellFormed
      (hT.isRoot root ht) hne (hT.isRoot importRoot hi) htokens himported hcollected⟩
  · rename_i hnone
    obtain ⟨k, hk, hfk, hapart, hfirst, hempty, hchildren⟩ :=
      attachTokens_eq_ok hT ht hx hnone grammar importRoot
    have hTk := (hfk.steady hT ht hi (by decide)).rooted hT
    have hsame : k.children imported = f.children imported :=
      hchildren imported (lt_size_of_parent?_eq hip) (ne_of_parent (hT.isRoot root ht) hip)
    obtain ⟨hipk, hikk⟩ : k.parent? imported = some importRoot ∧ k.kind imported = .tokensSpec :=
      ⟨(hfk.parent?_of_root hT.wellFormed (hT.lt_size _ hi) (hT.isRoot _ hi)
        (lt_size_of_parent?_eq hip)).mpr hip, (hfk.kind_eq (lt_size_of_parent?_eq hip)).trans hik⟩
    obtain ⟨hp, hkind⟩ := of_firstChildOfKind? hTk.wellFormed hfirst
    obtain ⟨g, hg, hcollected, hkg, hrest⟩ := pushTokens_eq_ok hTk ht hi hp hkind hipk hikk
    refine ⟨g, ?_, hfk.trans hT hi hkg, hapart.trans hT.wellFormed hrest, fun hne => ?_⟩
    · simp only [alloc_snd, hk, bind, Except.bind]
      exact hg
    · have himportedk : k.firstChildOfKind? importRoot .tokensSpec = some imported := by
        rw [← himported]
        exact firstChildOfKind?_congr
          (hfk.children_of_root (hT.lt_size _ hi) (hT.isRoot _ hi) hne)
          (fun c hc => hfk.label c (hT.wellFormed.lt_size_of_child hc)) .tokensSpec
      obtain ⟨hroot, hleft⟩ := Collected.sectionItems_tokens hTk.wellFormed (hTk.isRoot root ht)
        hne (hTk.isRoot importRoot hi) hfirst himportedk hcollected
      refine ⟨?_, hleft⟩
      rw [hroot, hempty, sectionItems_of_some himportedk, hsame, sectionItems_of_none hnone,
        sectionItems_of_some himported]

end Integration

end GrammarTrees
