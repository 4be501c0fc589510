import GrammarTrees.Template.Expansion

/-! The code in actions and predicates, and the templates that it is rendered as: each brace gives
way to a space. -/

namespace GrammarTrees

variable {opening : Char} {closing cs body : List Char}

theorem inside?_eq_some_iff : inside? opening closing cs = some body ↔
    cs = opening :: (body ++ closing) := by
  cases cs with
  | nil => simp [inside?]
  | cons c cs =>
    rw [inside?]
    constructor
    · intro h
      split at h
      · rename_i hc
        obtain ⟨front, rfl⟩ := List.isSuffixOf_iff_suffix.mp hc.2
        rw [List.length_append, Nat.add_sub_cancel, List.take_left] at h
        rw [hc.1, Option.some.inj h]
      · simp at h
    · intro h
      obtain ⟨rfl, rfl⟩ := List.cons.inj h
      rw [if_pos ⟨rfl, List.isSuffixOf_iff_suffix.mpr (List.suffix_append body closing)⟩]
      simp

namespace Template

/-- A node of the kind `kind` with the text `text` holds the code `body`. -/
inductive CodeText : (kind : Kind) → (body text : String) → Prop
  | action (body : String) : CodeText .action body ("\x7b" ++ body ++ "\x7d")
  | predicate (body : String) : CodeText .sempred body ("\x7b" ++ body ++ "\x7d?")

variable {kind : Kind} {body text template : String}

theorem CodeText.holdsCode (h : CodeText kind body text) : kind.holdsCode = true := by
  cases h <;> rfl

theorem codeText_iff (hk : kind.holdsCode = true) :
    CodeText kind body text ↔ actionBody? kind text = some body.toList := by
  have htext : ∀ opening closing : String, text = opening ++ body ++ closing ↔
      text.toList = opening.toList ++ body.toList ++ closing.toList := by
    intro opening closing
    rw [← String.toList_inj, String.toList_append, String.toList_append]
  unfold actionBody?
  rw [inside?_eq_some_iff]
  cases kind with
  | action =>
    refine Iff.trans ⟨fun h => ?_, fun h => ?_⟩ (htext "\x7b" "\x7d")
    · cases h
      rfl
    · subst h
      exact .action body
  | sempred =>
    refine Iff.trans ⟨fun h => ?_, fun h => ?_⟩ (htext "\x7b" "\x7d?")
    · cases h
      rfl
    · subst h
      exact .predicate body
  | _ => simp [Kind.holdsCode] at hk

theorem CodeText.unique {body' : String} (h : CodeText kind body text)
    (h' : CodeText kind body' text) : body = body' := by
  have hbody := (codeText_iff h.holdsCode).mp h
  rw [(codeText_iff h.holdsCode).mp h'] at hbody
  exact (String.toList_inj.mp (Option.some.inj hbody)).symm

/-- The template of some code is the code between two spaces. -/
theorem actionTemplate?_eq_some_iff (hk : kind.holdsCode = true) :
    actionTemplate? kind text = some template ↔
      ∃ body, CodeText kind body text ∧ template = " " ++ body ++ " " := by
  have hspaces : ∀ cs : List Char,
      String.ofList (' ' :: (cs ++ [' '])) = " " ++ String.ofList cs ++ " " := by
    intro cs
    rw [← String.toList_inj]
    simp
  unfold actionTemplate?
  rw [Option.map_eq_some_iff]
  constructor
  · rintro ⟨cs, hcs, rfl⟩
    refine ⟨String.ofList cs, (codeText_iff hk).mpr ?_, hspaces cs⟩
    rw [hcs, String.toList_ofList]
  · rintro ⟨body, hbody, rfl⟩
    refine ⟨body.toList, (codeText_iff hk).mp hbody, ?_⟩
    rw [hspaces, String.ofList_toList]

theorem actionTemplate?_eq_none_iff (hk : kind.holdsCode = true) :
    actionTemplate? kind text = none ↔ ∀ body, ¬ CodeText kind body text := by
  rw [Option.eq_none_iff_forall_ne_some]
  constructor
  · intro h body hbody
    exact h _ ((actionTemplate?_eq_some_iff hk).mpr ⟨body, hbody, rfl⟩)
  · intro h template htemplate
    obtain ⟨body, hbody, -⟩ := (actionTemplate?_eq_some_iff hk).mp htemplate
    exact h body hbody

end Template

end GrammarTrees
