import GrammarTrees.Proofs.Template.Bodies
import GrammarTrees.Proofs.Template.ExpressionGrammar

/-! The grammar of bodies: comments, escapes, expressions between angle brackets and characters that
stand for themselves, one after the other. A body can be compiled if and only if it is a sequence of
these, and its chunks and the offsets in them are read off that sequence. -/

namespace GrammarTrees.Template

variable {c : Char} {cs front rest : List Char} {piece : Option Piece} {p : Piece}
  {ps more : List Piece} {chunk : Chunk} {chunks : List Chunk} {e : Expression} {source : String}
  {size offset n : Nat}

/-! ### The grammar -/

/-- The characters `front` from byte `offset` on, with `rest` after them, are a comment or the given
piece. -/
inductive ItemAt : (offset : Nat) → (front : List Char) → Option Piece → (rest : List Char) → Prop
  | comment {offset : Nat} {text rest : List Char} (htext : ¬ ['!', '>'] <:+: text ++ ['!']) :
      ItemAt offset ('<' :: '!' :: (text ++ ['!', '>'])) none rest
  | escape {offset : Nat} {c : Char} {rest : List Char} (hc : IsEscapable c) :
      ItemAt offset ['\\', c] (some (.char c)) rest
  | expression {offset : Nat} {before inner after rest : List Char} {e : Expression}
      (hbefore : Expression.IsGap before) (hafter : Expression.IsGap after)
      (he : e.Spells (offset + byteLength ('<' :: before)) inner) :
      ItemAt offset ('<' :: (before ++ (inner ++ (after ++ ['>'])))) (some (.expression e)) rest
  | plain {offset : Nat} {c : Char} {rest : List Char} (hangle : c ≠ '<')
      (hescape : c = '\\' → ∀ d ∈ rest.head?, ¬ IsEscapable d) :
      ItemAt offset [c] (some (.char c)) rest

/-- The characters from byte `offset` on are a sequence of items with these pieces in it. -/
inductive ItemsAt : (offset : Nat) → List Char → List Piece → Prop
  | nil {offset : Nat} : ItemsAt offset [] []
  | cons {offset : Nat} {front rest : List Char} {piece : Option Piece} {ps : List Piece}
      (h : ItemAt offset front piece rest) (hrest : ItemsAt (offset + byteLength front) rest ps) :
      ItemsAt offset (front ++ rest) (piece.toList ++ ps)

/-! ### Chunks -/

def Chunk.pieces : Chunk → List Piece
  | .text cs => cs.map .char
  | .expression e => [.expression e]

def Chunk.isText : Chunk → Bool
  | .text _ => true
  | .expression _ => false

/-- The chunks hold the pieces in order, with the characters between two expressions in one
chunk. -/
structure Joined (ps : List Piece) (chunks : List Chunk) : Prop where
  pieces : chunks.flatMap Chunk.pieces = ps
  nonempty : ∀ chunk ∈ chunks, chunk ≠ .text []
  apart : chunks.IsChain fun a b => ¬ (a.isText ∧ b.isText)

theorem isChain_cons_iff_head? {r : Chunk → Chunk → Prop} :
    (chunk :: chunks).IsChain r ↔ (∀ b ∈ chunks.head?, r chunk b) ∧ chunks.IsChain r := by
  cases chunks with
  | nil => simp
  | cons b chunks => simp

theorem joined_chunksOf (ps : List Piece) : Joined ps (chunksOf ps) := by
  induction ps with
  | nil => exact ⟨rfl, by simp [chunksOf], .nil⟩
  | cons p ps ih =>
    obtain ⟨hpieces, hnonempty, hapart⟩ := ih
    cases p with
    | expression e =>
      rw [chunksOf]
      exact ⟨by rw [List.flatMap_cons, hpieces]; rfl,
        List.forall_mem_cons.mpr ⟨by simp, hnonempty⟩,
        isChain_cons_iff_head?.mpr ⟨fun _ _ h => Bool.noConfusion h.1, hapart⟩⟩
    | char c =>
      rw [chunksOf]
      split
      · rename_i cs chunks hchunks
        rw [hchunks] at hpieces hnonempty hapart
        refine ⟨by rw [← hpieces]; rfl, ?_, ?_⟩
        · rw [List.forall_mem_cons] at hnonempty ⊢
          exact ⟨by simp, hnonempty.2⟩
        · rw [isChain_cons_iff_head?] at hapart ⊢
          exact hapart
      · rename_i hchunks
        refine ⟨by rw [List.flatMap_cons, hpieces]; rfl,
          List.forall_mem_cons.mpr ⟨by simp, hnonempty⟩, isChain_cons_iff_head?.mpr ⟨?_, hapart⟩⟩
        rintro (cs | e) hb
        · obtain ⟨more, hmore⟩ := List.head?_eq_some_iff.mp hb
          exact (hchunks cs more hmore).elim
        · exact fun h => Bool.noConfusion h.2

theorem chunksOf_map_append (hcs : cs ≠ [])
    (h : ∀ chunk ∈ (chunksOf ps).head?, chunk.isText = false) :
    chunksOf (cs.map .char ++ ps) = .text cs :: chunksOf ps := by
  induction cs with
  | nil => exact absurd rfl hcs
  | cons c cs ih =>
    rw [List.map_cons, List.cons_append, chunksOf]
    cases cs with
    | nil =>
      rw [List.map_nil, List.nil_append]
      split
      · rename_i hchunks
        rw [hchunks] at h
        exact Bool.noConfusion (h _ rfl)
      · rfl
    | cons d ds => rw [ih (List.cons_ne_nil d ds)]

theorem Joined.eq_chunksOf (h : Joined ps chunks) : chunks = chunksOf ps := by
  induction chunks generalizing ps with
  | nil => rw [← h.pieces]; rfl
  | cons chunk chunks ih =>
    obtain ⟨hpieces, hnonempty, hapart⟩ := h
    obtain ⟨hhead, htail⟩ := isChain_cons_iff_head?.mp hapart
    have hchunks := ih ⟨rfl, (List.forall_mem_cons.mp hnonempty).2, htail⟩
    rw [← hpieces, List.flatMap_cons]
    cases chunk with
    | text cs =>
      have hcs : cs ≠ [] := fun h => hnonempty _ List.mem_cons_self (congrArg Chunk.text h)
      rw [Chunk.pieces, chunksOf_map_append hcs, ← hchunks]
      rw [← hchunks]
      intro b hb
      simpa [Chunk.isText] using hhead b hb
    | expression e =>
      rw [Chunk.pieces, List.singleton_append, chunksOf, ← hchunks]

/-! ### Items -/

theorem exists_finds_of_itemAt (h : ItemAt offset front piece rest) (size : Nat) :
    ∃ c more, front = c :: more ∧ Finds size offset c (more ++ rest) piece more.length := by
  cases h with
  | @comment text _ htext =>
    have hfinds : Finds size offset '<' ('!' :: (text ++ '!' :: '>' :: rest)) none _ :=
      .comment htext
    exact ⟨'<', _, rfl, by simpa using hfinds⟩
  | escape hc => exact ⟨_, _, rfl, .escape hc⟩
  | @expression before inner after _ e hbefore hafter he =>
    rw [byteLength_cons, ← Nat.add_assoc] at he
    have hread : Expression.read size (offset + 1) (before ++ (inner ++ (after ++ '>' :: rest))) =
        .ok (e, (before ++ (inner ++ after)).length + 1) :=
      Expression.read_eq_ok_iff.mpr ⟨before, inner, after, rest, rfl, rfl, hbefore, hafter, he⟩
    have hfinds := Finds.expression (Expression.head?_ne_of_read hread) hread
    exact ⟨'<', _, rfl, by simpa [Nat.add_assoc] using hfinds⟩
  | plain hangle hescape => exact ⟨_, [], rfl, .plain hangle hescape⟩

theorem exists_itemAt_of_finds (h : Finds size offset c cs piece n) :
    ∃ front rest, cs = front ++ rest ∧ n = front.length ∧
      ItemAt offset (c :: front) piece rest := by
  cases h with
  | escape hc => exact ⟨[_], _, rfl, rfl, .escape hc⟩
  | @comment text rest htext =>
    exact ⟨'!' :: (text ++ ['!', '>']), rest, by simp, by simp, .comment htext⟩
  | expression _ hread =>
    obtain ⟨before, inner, after, rest, rfl, rfl, hbefore, hafter, he⟩ :=
      Expression.read_eq_ok_iff.mp hread
    refine ⟨before ++ (inner ++ (after ++ ['>'])), rest, by simp, by simp [Nat.add_assoc],
      .expression hbefore hafter ?_⟩
    rwa [byteLength_cons, ← Nat.add_assoc]
  | plain hangle hescape => exact ⟨[], cs, rfl, rfl, .plain hangle hescape⟩

theorem itemsAt_of_readPieces (h : readPieces size offset 0 cs = .ok ps) :
    ItemsAt offset cs ps := by
  induction hn : cs.length using Nat.strong_induction_on generalizing cs offset ps with
  | _ n ih =>
    cases cs with
    | nil =>
      cases h
      exact .nil
    | cons c cs =>
      rw [readPieces] at h
      obtain ⟨⟨piece, further⟩, hpiece, h⟩ := bind_eq_ok h
      obtain ⟨more, hmore, h⟩ := bind_eq_ok h
      cases h
      obtain ⟨front, rest, rfl, rfl, hitem⟩ :=
        exists_itemAt_of_finds (pieceAt_eq_ok_iff.mp hpiece)
      simp only [readPieces_skip, Nat.add_assoc, ← byteLength_cons] at hmore
      exact .cons hitem (ih rest.length (by simp at hn; omega) hmore rfl)

theorem readPieces_of_itemsAt (h : ItemsAt offset cs ps) (size : Nat) :
    readPieces size offset 0 cs = .ok ps := by
  induction h with
  | nil => rfl
  | cons hitem _ ih =>
    obtain ⟨c, more, rfl, hfinds⟩ := exists_finds_of_itemAt hitem size
    rw [List.cons_append, readPieces, pieceAt_eq_ok_iff.mpr hfinds]
    rw [byteLength_cons, ← Nat.add_assoc] at ih
    simp [bind, Except.bind, readPieces_skip, ih, pure, Except.pure]

/-- A body is compiled exactly if it is a sequence of items, and to their pieces. -/
theorem compileBody_eq_ok_iff :
    compileBody source = .ok chunks ↔ ∃ ps, ItemsAt 0 source.toList ps ∧ Joined ps chunks := by
  constructor
  · intro h
    obtain ⟨ps, hps, h⟩ := bind_eq_ok h
    cases h
    exact ⟨ps, itemsAt_of_readPieces hps, joined_chunksOf ps⟩
  · rintro ⟨ps, hps, hchunks⟩
    rw [compileBody, readPieces_of_itemsAt hps, hchunks.eq_chunksOf]
    rfl

/-! ### Offsets -/

theorem nameAt_of_itemAt (h : ItemAt offset front (some (.expression e)) rest) :
    ∀ p ∈ e.names, Expression.NameAt offset front p := by
  cases h with
  | @expression _ _ after _ _ _ _ he =>
    intro p hp
    have h := ((Expression.nameAt_of_spells he p hp).append_right (after ++ ['>'])).append_left
    simpa using h

theorem nameAt_of_itemsAt (h : ItemsAt offset cs ps) :
    ∀ e, .expression e ∈ ps → ∀ p ∈ e.names, Expression.NameAt offset cs p := by
  induction h with
  | nil => exact nofun
  | @cons offset front rest piece ps hitem _ ih =>
    intro e he p hp
    rcases List.mem_append.mp he with he | he
    · rw [Option.mem_toList.mp he] at hitem
      exact (nameAt_of_itemAt hitem p hp).append_right rest
    · exact (ih e he p hp).append_left

theorem Joined.mem_pieces (h : Joined ps chunks) (he : .expression e ∈ chunks) :
    .expression e ∈ ps := by
  rw [← h.pieces]
  exact List.mem_flatMap.mpr ⟨_, he, List.mem_singleton_self _⟩

theorem SyntaxError.StandsIn.offset_le {e : SyntaxError} (h : e.StandsIn offset cs) :
    e.offset ≤ offset + byteLength cs := by
  obtain ⟨done, todo, rfl, hoffset, -⟩ := h
  rw [hoffset, byteLength_append]
  omega

/-- A body can be compiled if and only if it is a sequence of items. Its chunks then are the
expressions among them, with the characters between two expressions in one text, and every name
stands where its offset says. Otherwise the error stands inside the body or at its end. -/
theorem compileBody_iff_itemsAt (source : String) :
    ((∃ chunks, compileBody source = .ok chunks) ↔ ∃ ps, ItemsAt 0 source.toList ps) ∧
    (∀ chunks, compileBody source = .ok chunks →
      (∀ ps, ItemsAt 0 source.toList ps → Joined ps chunks) ∧
      ∀ e, .expression e ∈ chunks → ∀ p ∈ e.names, Expression.NameAt 0 source.toList p) ∧
    ∀ e, compileBody source = .error e → e.offset ≤ byteLength source.toList := by
  refine ⟨⟨fun ⟨chunks, h⟩ => ?_, fun ⟨ps, h⟩ => ?_⟩, fun chunks h => ⟨fun ps hps => ?_, ?_⟩,
    fun e h => ?_⟩
  · obtain ⟨ps, hps, -⟩ := compileBody_eq_ok_iff.mp h
    exact ⟨ps, hps⟩
  · exact ⟨_, compileBody_eq_ok_iff.mpr ⟨ps, h, joined_chunksOf ps⟩⟩
  · have hchunks := compileBody_eq_ok_iff.mpr ⟨ps, hps, joined_chunksOf ps⟩
    rw [h] at hchunks
    rw [Except.ok.inj hchunks]
    exact joined_chunksOf ps
  · obtain ⟨ps, hps, hjoined⟩ := compileBody_eq_ok_iff.mp h
    intro e he
    exact nameAt_of_itemsAt hps e (hjoined.mem_pieces he)
  · simpa using (standsIn_of_compileBody h).offset_le

end GrammarTrees.Template
