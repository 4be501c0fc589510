import GrammarTrees.Proofs.Template.Expressions

/-! What bodies of templates hold, said without offsets: piece by piece, each with the text after
it. A body can be compiled if and only if it holds pieces, and these are what it is compiled to. -/

namespace GrammarTrees.Template

variable {c : Char} {cs rest : List Char} {piece : Option Piece} {ps : List Piece}
  {chunks : List Chunk} {body : String} {size offset n : Nat}

/-- The characters that a backslash makes stand for themselves. -/
def IsEscapable (c : Char) : Prop := c = '<' ∨ c = '>' ∨ c = '\\'

/-- A piece without its offsets. -/
def Piece.bare : Piece → Piece
  | .char c => .char c
  | .expression e => .expression e.bare

/-- What stands first in a text, a piece or a comment, and the text after it. -/
inductive Takes : (cs : List Char) → Option Piece → (rest : List Char) → Prop
  | escape {c : Char} {cs : List Char} (hc : IsEscapable c) :
      Takes ('\\' :: c :: cs) (some (.char c)) cs
  | comment {front cs : List Char} (hfront : ¬ ['!', '>'] <:+: front ++ ['!']) :
      Takes ('<' :: '!' :: (front ++ '!' :: '>' :: cs)) none cs
  | expression {inner cs : List Char} {e : Expression} (hmark : inner.head? ≠ some '!')
      (hinner : Expression.Reads inner e) :
      Takes ('<' :: (inner ++ '>' :: cs)) (some (.expression e)) cs
  | plain {c : Char} {cs : List Char} (hangle : c ≠ '<')
      (hescape : c = '\\' → ∀ d ∈ cs.head?, ¬ IsEscapable d) :
      Takes (c :: cs) (some (.char c)) cs

/-- A text and the pieces in it, in order. -/
inductive Holds : (cs : List Char) → List Piece → Prop
  | nil : Holds [] []
  | cons {cs rest : List Char} {piece : Option Piece} {ps : List Piece}
      (h : Takes cs piece rest) (hrest : Holds rest ps) : Holds cs (piece.toList ++ ps)

/-! ### One piece -/

theorem head?_append_close_ne {inner : List Char} (h : inner.head? ≠ some '!') (rest : List Char) :
    (inner ++ '>' :: rest).head? ≠ some '!' := by
  cases inner with
  | nil => simp
  | cons d inner => exact h

theorem pieceAt_angle (h : cs.head? ≠ some '!') : pieceAt size offset '<' cs =
    (Expression.read size (offset + 1) cs).map fun r => (some (.expression r.1), r.2) := by
  have hread : pieceAt size offset '<' cs =
      (fun r => (some (.expression r.1), r.2)) <$> Expression.read size (offset + 1) cs := by
    unfold pieceAt
    split <;> simp_all
  rw [hread]
  cases Expression.read size (offset + 1) cs <;> rfl

theorem pieceAt_escape (hc : IsEscapable c) (cs : List Char) :
    pieceAt size offset '\\' (c :: cs) = .ok (some (.char c), 1) := by
  rcases hc with rfl | rfl | rfl <;> rfl

theorem pieceAt_plain (hangle : c ≠ '<') (hescape : c = '\\' → ∀ d ∈ cs.head?, ¬ IsEscapable d) :
    pieceAt size offset c cs = .ok (some (.char c), 0) := by
  unfold pieceAt
  split <;> simp_all [IsEscapable]

/-- What can start with a character, and the number of further characters that belong to it. -/
inductive Finds (size offset : Nat) : Char → List Char → Option Piece → Nat → Prop
  | escape {c : Char} {cs : List Char} (hc : IsEscapable c) :
      Finds size offset '\\' (c :: cs) (some (.char c)) 1
  | comment {front cs : List Char} (hfront : ¬ ['!', '>'] <:+: front ++ ['!']) :
      Finds size offset '<' ('!' :: (front ++ '!' :: '>' :: cs)) none (front.length + 3)
  | expression {cs : List Char} {e : Expression} {n : Nat} (hmark : cs.head? ≠ some '!')
      (hread : Expression.read size (offset + 1) cs = .ok (e, n)) :
      Finds size offset '<' cs (some (.expression e)) n
  | plain {c : Char} {cs : List Char} (hangle : c ≠ '<')
      (hescape : c = '\\' → ∀ d ∈ cs.head?, ¬ IsEscapable d) :
      Finds size offset c cs (some (.char c)) 0

theorem pieceAt_eq_ok_iff :
    pieceAt size offset c cs = .ok (piece, n) ↔ Finds size offset c cs piece n := by
  constructor
  · intro h
    by_cases hangle : c = '<'
    · subst hangle
      by_cases hmark : cs.head? = some '!'
      · obtain ⟨comment, rfl⟩ := List.head?_eq_some_iff.mp hmark
        unfold pieceAt at h
        simp only at h
        split at h
        · rename_i length hlength
          obtain ⟨front, rest, rfl, hfront, rfl⟩ := exists_of_lengthThrough hlength
          cases h
          exact .comment hfront
        · cases h
      · rw [pieceAt_angle hmark] at h
        cases hread : Expression.read size (offset + 1) cs with
        | error e => rw [hread] at h; cases h
        | ok r =>
          rw [hread] at h
          cases h
          exact .expression hmark hread
    · by_cases hescape : c = '\\' ∧ ∃ d ∈ cs.head?, IsEscapable d
      · obtain ⟨rfl, d, hd, hescapable⟩ := hescape
        obtain ⟨rest, rfl⟩ := List.head?_eq_some_iff.mp hd
        rw [pieceAt_escape hescapable] at h
        cases h
        exact .escape hescapable
      · have hplain : c = '\\' → ∀ d ∈ cs.head?, ¬ IsEscapable d :=
          fun hc d hd hescapable => hescape ⟨hc, d, hd, hescapable⟩
        rw [pieceAt_plain hangle hplain] at h
        cases h
        exact .plain hangle hplain
  · intro h
    cases h with
    | escape hc => exact pieceAt_escape hc _
    | comment hfront =>
      have hlength := lengthThrough_append hfront
      simp [pieceAt, hlength]
    | expression hmark hread =>
      rw [pieceAt_angle hmark, hread]
      rfl
    | plain hangle hescape => exact pieceAt_plain hangle hescape

theorem takes_of_pieceAt (h : pieceAt size offset c cs = .ok (piece, n)) :
    ∃ front rest, cs = front ++ rest ∧ n = front.length ∧
      Takes (c :: cs) (piece.map Piece.bare) rest := by
  cases pieceAt_eq_ok_iff.mp h with
  | @escape d rest hc => exact ⟨[d], rest, rfl, rfl, .escape hc⟩
  | @comment front rest hfront =>
    exact ⟨'!' :: (front ++ ['!', '>']), rest, by simp, by simp, .comment hfront⟩
  | expression hmark hread =>
    obtain ⟨inner, rest, rfl, hlength, hreads⟩ := Expression.exists_reads_of_read hread
    refine ⟨inner ++ ['>'], rest, by simp, by simp [hlength], .expression ?_ hreads⟩
    intro hinner
    exact hmark (by simp [hinner])
  | plain hangle hescape => exact ⟨[], cs, rfl, rfl, .plain hangle hescape⟩

theorem pieceAt_of_takes {text : List Char} (h : Takes text piece rest) (size offset : Nat) :
    ∃ c front piece', text = c :: (front ++ rest) ∧
      pieceAt size offset c (front ++ rest) = .ok (piece', front.length) ∧
      piece'.map Piece.bare = piece := by
  cases h with
  | @escape c _ hc => exact ⟨'\\', [c], _, rfl, pieceAt_escape hc rest, rfl⟩
  | @comment front _ hfront =>
    refine ⟨'<', '!' :: (front ++ ['!', '>']), none, by simp, ?_, rfl⟩
    have hfinds : Finds size offset '<' ('!' :: (front ++ '!' :: '>' :: rest)) none _ :=
      .comment hfront
    simpa using pieceAt_eq_ok_iff.mpr hfinds
  | @expression inner _ e hmark hinner =>
    obtain ⟨e', hread, rfl⟩ := hinner size (offset + 1) rest
    refine ⟨'<', inner ++ ['>'], some (.expression e'), by simp, ?_, rfl⟩
    rw [List.append_assoc, List.singleton_append,
      pieceAt_angle (head?_append_close_ne hmark rest), hread]
    simp [Except.map]
  | plain hangle hescape => exact ⟨_, [], _, rfl, pieceAt_plain hangle hescape, rfl⟩

/-! ### Bodies -/

theorem readPieces_skip (size : Nat) (front rest : List Char) (offset : Nat) :
    readPieces size offset front.length (front ++ rest) =
      readPieces size (offset + byteLength front) 0 rest := by
  induction front generalizing offset with
  | nil => rfl
  | cons c front ih =>
    rw [List.cons_append, List.length_cons, readPieces, ih, byteLength_cons, Nat.add_assoc]

theorem holds_of_readPieces (h : readPieces size offset 0 cs = .ok ps) :
    Holds cs (ps.map Piece.bare) := by
  induction hn : cs.length using Nat.strong_induction_on generalizing cs offset ps with
  | _ n ih =>
    cases cs with
    | nil =>
      cases h
      exact .nil
    | cons c cs =>
      rw [readPieces] at h
      obtain ⟨⟨piece, further⟩, hpiece, h⟩ := bind_eq_ok h
      obtain ⟨more, hmore, h⟩ := bind_eq_ok h
      cases h
      obtain ⟨front, rest, rfl, rfl, htakes⟩ := takes_of_pieceAt hpiece
      simp only [readPieces_skip] at hmore
      have hrest := ih rest.length (by simp at hn; omega) hmore rfl
      have hholds := Holds.cons htakes hrest
      cases piece <;> exact hholds

theorem readPieces_of_holds (h : Holds cs ps) (size offset : Nat) :
    ∃ ps', readPieces size offset 0 cs = .ok ps' ∧ ps'.map Piece.bare = ps := by
  induction h generalizing offset with
  | nil => exact ⟨[], rfl, rfl⟩
  | cons htakes _ ih =>
    obtain ⟨c, front, piece', rfl, hpiece, rfl⟩ := pieceAt_of_takes htakes size offset
    obtain ⟨more, hmore, rfl⟩ := ih (offset + c.utf8Size + byteLength front)
    refine ⟨piece'.toList ++ more, ?_, by cases piece' <;> rfl⟩
    rw [readPieces, hpiece]
    simp [bind, Except.bind, readPieces_skip, hmore, pure, Except.pure]

theorem chunksOf_bare (ps : List Piece) :
    (chunksOf ps).map Chunk.bare = chunksOf (ps.map Piece.bare) := by
  induction ps with
  | nil => rfl
  | cons p ps ih =>
    cases p with
    | char c =>
      rw [List.map_cons, Piece.bare, chunksOf, chunksOf, ← ih]
      rcases chunksOf ps with _ | ⟨_ | _, chunks⟩ <;> rfl
    | expression e => rw [List.map_cons, Piece.bare, chunksOf, chunksOf, List.map_cons, ih]; rfl

theorem exists_holds_of_compileBody (h : compileBody body = .ok chunks) :
    ∃ ps, Holds body.toList ps ∧ chunks.map Chunk.bare = chunksOf ps := by
  obtain ⟨ps, hps, h⟩ := bind_eq_ok h
  cases h
  exact ⟨_, holds_of_readPieces hps, chunksOf_bare ps⟩

theorem exists_compileBody_of_holds (h : Holds body.toList ps) :
    ∃ chunks, compileBody body = .ok chunks ∧ chunks.map Chunk.bare = chunksOf ps := by
  obtain ⟨ps', hps', rfl⟩ := readPieces_of_holds h (byteLength body.toList) 0
  refine ⟨chunksOf ps', ?_, chunksOf_bare ps'⟩
  rw [compileBody, hps']
  rfl

end GrammarTrees.Template
