import GrammarTrees.Proofs.Template.Code

/-! Places in templates as places in the grammar. A template has a space where its action has a
brace, so each of its bytes stands for one byte of the action, and the place of the byte in the
template, seen from the place of the action, is the place of the byte in the grammar. -/

namespace GrammarTrees

variable {cs ds : List Char} {n : Nat}

theorem byteLength_toList (s : String) : byteLength s.toList = s.utf8ByteSize := by
  suffices h : ∀ cs : List Char, byteLength cs = (String.ofList cs).utf8ByteSize by
    rw [h, String.ofList_toList]
  intro cs
  induction cs with
  | nil => rfl
  | cons c cs ih =>
    have hcons : String.ofList (c :: cs) = String.singleton c ++ String.ofList cs := by
      rw [← String.toList_inj]
      simp
    rw [hcons, String.utf8ByteSize_append, String.utf8ByteSize_singleton, byteLength_cons, ih]

/-! ### Leading characters -/

@[simp] theorem takeBytes_zero (cs : List Char) : takeBytes cs 0 = [] := by
  cases cs with
  | nil => rfl
  | cons c cs => rw [takeBytes, if_neg (Nat.not_le_of_lt c.utf8Size_pos)]

/-- As many bytes as the first part has lead to its end. -/
theorem takeBytes_append (cs ds : List Char) (n : Nat) :
    takeBytes (cs ++ ds) (byteLength cs + n) = cs ++ takeBytes ds n := by
  induction cs with
  | nil => simp
  | cons c cs ih =>
    have hrest : c.utf8Size + byteLength cs + n - c.utf8Size = byteLength cs + n := by omega
    rw [List.cons_append, takeBytes, byteLength_cons, if_pos (by omega), hrest, ih,
      List.cons_append]

/-- Fewer bytes than the first part has do not reach beyond it. -/
theorem takeBytes_append_of_le (ds : List Char) (h : n ≤ byteLength cs) :
    takeBytes (cs ++ ds) n = takeBytes cs n := by
  induction cs generalizing n with
  | nil =>
    obtain rfl : n = 0 := Nat.le_zero.mp h
    simp
  | cons c cs ih =>
    rw [byteLength_cons] at h
    rw [List.cons_append, takeBytes, takeBytes]
    split
    · rw [ih (by omega)]
    · rfl

theorem byteLength_takeBytes_le (cs : List Char) (n : Nat) :
    byteLength (takeBytes cs n) ≤ n := by
  induction cs generalizing n with
  | nil => exact Nat.zero_le n
  | cons c cs ih =>
    rw [takeBytes]
    split
    · have hrest := ih (n - c.utf8Size)
      rw [byteLength_cons]
      omega
    · exact Nat.zero_le n

theorem takeBytes_prefix (cs : List Char) (n : Nat) : takeBytes cs n <+: cs := by
  induction cs generalizing n with
  | nil => exact List.prefix_refl []
  | cons c cs ih =>
    rw [takeBytes]
    split
    · exact List.cons_prefix_cons.mpr ⟨rfl, ih _⟩
    · exact List.nil_prefix

namespace Position

/-! ### Different places -/

/-- Reading goes down or to the right. -/
theorem lt_after (p : Position) (c : Char) (cs : List Char) :
    p.line < (p.after (c :: cs)).line ∨
      p.line = (p.after (c :: cs)).line ∧ p.column < (p.after (c :: cs)).column := by
  induction cs generalizing p c with
  | nil =>
    rw [after_cons, after_nil, advance]
    split <;> simp
  | cons d cs ih =>
    have hfirst : p.line < (p.advance c).line ∨
        p.line = (p.advance c).line ∧ p.column < (p.advance c).column := by
      rw [advance]
      split <;> simp
    have hrest := ih (p.advance c) d
    rw [after_cons]
    omega

/-- Different offsets stand for different places, as long as characters start there. -/
theorem ofOffset_eq_iff {source : String} {front back : List Char}
    (hsource : source.toList = front ++ back) (hn : n ≤ byteLength front) :
    ofOffset source n = ofOffset source (byteLength front) ↔ n = byteLength front := by
  refine ⟨fun h => ?_, fun h => by rw [h]⟩
  obtain ⟨rest, hrest⟩ := takeBytes_prefix front n
  have hall : takeBytes (front ++ back) (byteLength front) = front := by
    simpa using takeBytes_append front back 0
  rw [ofOffset, ofOffset, hsource, hall, takeBytes_append_of_le _ hn] at h
  cases rest with
  | nil =>
    have hle := byteLength_takeBytes_le front n
    rw [List.append_nil] at hrest
    rw [hrest] at hle
    exact Nat.le_antisymm hn hle
  | cons c rest =>
    have hlt := lt_after (first.after (takeBytes front n)) c rest
    rw [← after_append, hrest, h] at hlt
    omega

/-! ### Nested places -/

theorem within_first (base : Position) : base.within first = base := by
  simp [within, first]

theorem within_advance (base : Position) {p : Position} (hp : 0 < p.line) (c : Char) :
    base.within (p.advance c) = (base.within p).advance c := by
  unfold within advance
  split
  · simp only [Position.mk.injEq]
    constructor
    · omega
    · rw [if_neg (by omega)]
  · simp only [Position.mk.injEq, true_and]
    split <;> omega

/-- Reading on in the inner text is reading on in the outer one. -/
theorem within_after (base : Position) {p : Position} (hp : 0 < p.line) (cs : List Char) :
    base.within (p.after cs) = (base.within p).after cs := by
  induction cs generalizing p with
  | nil => rfl
  | cons c cs ih =>
    have hline : 0 < (p.advance c).line := by
      unfold advance
      split
      · exact Nat.succ_pos _
      · exact hp
    rw [after_cons, after_cons, ih hline, within_advance base hp]

/-- A character that takes one byte may stand for another one, unless one of them is a line feed. -/
theorem after_takeBytes_cons (p : Position) {c d : Char} (hc : c.utf8Size = 1)
    (hd : d.utf8Size = 1) (hcd : p.advance c = p.advance d)
    (h : (p.advance c).after (takeBytes cs (n - 1)) = (p.advance c).after (takeBytes ds (n - 1))) :
    p.after (takeBytes (c :: cs) n) = p.after (takeBytes (d :: ds) n) := by
  rw [takeBytes, takeBytes, hc, hd]
  split
  · rw [after_cons, after_cons, ← hcd, h]
  · rfl

theorem advance_brace (p : Position) {c : Char} (hc : c = '\x7b' ∨ c = '\x7d') :
    p.advance ' ' = p.advance c := by
  rcases hc with rfl | rfl <;> simp [advance]

end Position

namespace Template

open Position

/-- `text` occurs in `source` at byte `offset`. -/
def OccursAt (text source : String) (offset : Nat) : Prop :=
  ∃ front back, source = front ++ text ++ back ∧ front.utf8ByteSize = offset

variable {kind : Kind} {body text source : String} {offset k : Nat}

/-- Some code in its braces, and what follows, is read as its template is. -/
theorem after_takeBytes_code (p : Position) (body back : List Char)
    (hk : k ≤ byteLength body + 2) :
    p.after (takeBytes (' ' :: (body ++ [' '])) k) =
      p.after (takeBytes ('\x7b' :: (body ++ '\x7d' :: back)) k) := by
  refine after_takeBytes_cons p rfl rfl (advance_brace p (.inl rfl)) ?_
  by_cases hend : k - 1 ≤ byteLength body
  · rw [takeBytes_append_of_le _ hend, takeBytes_append_of_le _ hend]
  -- past the code there is one byte left, that of the closing brace
  · have hlast : k - 1 = byteLength body + 1 := by omega
    rw [hlast, takeBytes_append, takeBytes_append, after_append, after_append]
    exact after_takeBytes_cons _ rfl rfl (advance_brace _ (.inr rfl)) (by simp)

/-- The text of an action is its code in braces, with something after them in a predicate. -/
theorem CodeText.toList_eq (h : CodeText kind body text) :
    ∃ mark, text.toList = '\x7b' :: (body.toList ++ '\x7d' :: mark) := by
  cases h with
  | action => exact ⟨[], by simp⟩
  | predicate => exact ⟨['?'], by simp⟩

/-- A place in the template of an action, seen from the place of the action, is the place in the
grammar of the byte that it stands for. -/
theorem within_ofOffset_template {position : Position} (hcode : CodeText kind body text)
    (hoccurs : OccursAt text source offset) (hposition : position = .ofOffset source offset)
    (hk : k ≤ body.utf8ByteSize + 2) :
    ∃ template, actionTemplate? kind text = some template ∧ template = " " ++ body ++ " " ∧
      position.within (.ofOffset template k) = .ofOffset source (offset + k) := by
  refine ⟨" " ++ body ++ " ",
    (actionTemplate?_eq_some_iff hcode.holdsCode).mpr ⟨body, hcode, rfl⟩, rfl, ?_⟩
  obtain ⟨front, back, rfl, rfl⟩ := hoccurs
  obtain ⟨mark, htext⟩ := hcode.toList_eq
  rw [← byteLength_toList] at hk
  have hsource : (front ++ text ++ back).toList =
      front.toList ++ '\x7b' :: (body.toList ++ '\x7d' :: (mark ++ back.toList)) := by
    simp [htext]
  have htemplate : (" " ++ body ++ " ").toList = ' ' :: (body.toList ++ [' ']) := by simp
  have hat : ∀ n, Position.ofOffset (front ++ text ++ back) (front.utf8ByteSize + n) =
      (first.after front.toList).after
        (takeBytes ('\x7b' :: (body.toList ++ '\x7d' :: (mark ++ back.toList))) n) := by
    intro n
    rw [ofOffset, hsource, ← byteLength_toList, takeBytes_append, after_append]
  calc position.within (.ofOffset (" " ++ body ++ " ") k)
      = (position.within first).after (takeBytes (' ' :: (body.toList ++ [' '])) k) := by
        rw [ofOffset, htemplate, within_after position (by decide)]
    _ = (first.after front.toList).after (takeBytes (' ' :: (body.toList ++ [' '])) k) := by
        have hstart := hat 0
        rw [Nat.add_zero, takeBytes_zero, after_nil] at hstart
        rw [within_first, hposition, hstart]
    _ = .ofOffset (front ++ text ++ back) (front.utf8ByteSize + k) := by
        rw [after_takeBytes_code _ _ (mark ++ back.toList) hk, hat]

/-- The place of a byte inside the last character of a predicate of two lines. -/
theorem within_ofOffset_template_predicate :
    CodeText .sempred "α\nβ" "\x7bα\nβ\x7d?" ∧
      OccursAt "\x7bα\nβ\x7d?" "a\n: é\x7bα\nβ\x7d? ;" 6 ∧
      ⟨2, 3⟩ = Position.ofOffset "a\n: é\x7bα\nβ\x7d? ;" 6 ∧
      5 ≤ ("α\nβ" : String).utf8ByteSize + 2 ∧
      ∃ template, actionTemplate? .sempred "\x7bα\nβ\x7d?" = some template ∧
        template = " " ++ "α\nβ" ++ " " ∧
        Position.within ⟨2, 3⟩ (.ofOffset template 5) =
          .ofOffset "a\n: é\x7bα\nβ\x7d? ;" (6 + 5) := by
  have hcode : CodeText .sempred "α\nβ" "\x7bα\nβ\x7d?" := .predicate "α\nβ"
  have hoccurs : OccursAt "\x7bα\nβ\x7d?" "a\n: é\x7bα\nβ\x7d? ;" 6 :=
    ⟨"a\n: é", " ;", by decide, by decide⟩
  have hposition : ⟨2, 3⟩ = Position.ofOffset "a\n: é\x7bα\nβ\x7d? ;" 6 := by decide
  have hk : 5 ≤ ("α\nβ" : String).utf8ByteSize + 2 := by decide
  exact ⟨hcode, hoccurs, hposition, hk, within_ofOffset_template hcode hoccurs hposition hk⟩

end Template

end GrammarTrees
