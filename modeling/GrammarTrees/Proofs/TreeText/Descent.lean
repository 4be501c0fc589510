import GrammarTrees.Proofs.Forest.Planting
import GrammarTrees.Proofs.TreeText.Grammar

/-! Reading in place. The nodes of a tree are made in the forest as soon as their kinds, texts and
positions are read, and each is hung below its parent when its closing parenthesis is met. Where
this stops, the nodes made so far are left as they stand. The reader, which makes all nodes at the
end, leaves the same. -/

namespace GrammarTrees

namespace TreeText

/-! ### Descent -/

/-- What a part of a text comes to: the forest that it leaves, and the node that was made for it
with the lexemes behind it, or the error. -/
abbrev Progress := Forest × Except ReadError (NodeId × List (Lexeme Token))

/-- The text of a node of the given kind, and the lexemes behind it. -/
def takeText (kind : Kind) : List (Lexeme Token) → Except ReadError (String × List (Lexeme Token))
  | [] => .ok (kind.name, [])
  | colon :: ls =>
    if colon.token = some .colon then
      match ls with
      | [] => .error (.unexpectedEnd .text)
      | l :: ls =>
        match l.token with
        | some .word | some .quoted | some .braced => .ok (l.text, ls)
        | _ => unexpected l .text
    else .ok (kind.name, colon :: ls)

/-- Gives a node the position that comes next, if one does. -/
def takePosition (f : Forest) (id : NodeId) : List (Lexeme Token) → Forest × List (Lexeme Token)
  | [] => (f, [])
  | l :: ls =>
    if l.token = some .position then (f.setPosition id (positionOf (l.chars.drop 1)), ls)
    else (f, l :: ls)

/-- Makes a node without its children. -/
def makeLeaf (f : Forest) : List (Lexeme Token) → Progress
  | [] => (f, .error (.unexpectedEnd .kind))
  | l :: ls =>
    if l.token = some .word then
      match Kind.ofName? l.text with
      | none => (f, .error (.unknownKind l.text l.offset))
      | some kind =>
        match takeText kind ls with
        | .error e => (f, .error e)
        | .ok (text, ls) =>
          let made := f.alloc (.make kind text)
          let placed := takePosition made.1 made.2 ls
          (placed.1, .ok (made.2, placed.2))
    else (f, unexpected l .kind)

mutual

/-- Makes a node with all that is below it. -/
def makeNode (f : Forest) : (bound : Nat) → List (Lexeme Token) → Except EditFault Progress
  | 0, _ => .error .unfinished
  | _ + 1, [] => .ok (f, .error (.unexpectedEnd .node))
  | bound + 1, l :: ls =>
    match l.token with
    | some .opening =>
      match makeLeaf f ls with
      | (g, .error e) => .ok (g, .error e)
      | (g, .ok (parent, ls)) => makeChildren g parent bound ls
    | some .word => .ok (makeLeaf f (l :: ls))
    | _ => .ok (f, unexpected l .node)

/-- Makes nodes below `parent` up to its closing parenthesis. -/
def makeChildren (f : Forest) (parent : NodeId) :
    (bound : Nat) → List (Lexeme Token) → Except EditFault Progress
  | 0, _ => .error .unfinished
  | _ + 1, [] => .ok (f, .error (.unexpectedEnd .closing))
  | bound + 1, l :: ls =>
    if l.token = some .closing then .ok (f, .ok (parent, ls))
    else
      match makeNode f bound (l :: ls) with
      | .error fault => .error fault
      | .ok (g, .error e) => .ok (g, .error e)
      | .ok (g, .ok (child, ls)) =>
        match g.pushChild parent child with
        | .error fault => .error fault
        | .ok h => makeChildren h parent bound ls

end

/-- Reads a tree in place. -/
def readInPlace (f : Forest) (source : String) :
    Except EditFault (Forest × Except ReadError NodeId) :=
  let lexemes := Lexeme.readAll scan source.toList
  match lexemes.find? (·.token.isNone) with
  | some l => .ok (f, .error (.invalidInput l.offset))
  | none =>
    let seen := lexemes.filter (·.token ≠ some .gap)
    match makeNode f (2 * seen.length + 1) seen with
    | .error fault => .error fault
    | .ok (g, .error e) => .ok (g, .error e)
    | .ok (g, .ok (root, [])) => .ok (g, .ok root)
    | .ok (g, .ok (_, l :: _)) => .ok (g, unexpected l .ending)

/-! ### The reader and the descent -/

variable {f g : Forest} {l : Lexeme Token} {ls rest : List (Lexeme Token)} {label : Label}
  {outer : List OpenNode} {n : OpenNode} {r : Reader} {kind : Kind} {bound : Nat}

/-- The parts of the open nodes that have been read. -/
def openTrees (outer : List OpenNode) : List (Tree Label) := outer.reverse.map OpenNode.tree

/-- The reader goes on with what `read` gives for the next lexeme, inside the open nodes `outer`. -/
def readOn (outer : List OpenNode) (read : Except ReadError Reader) (ls : List (Lexeme Token)) :
    Except (ReadError × List (Tree Label)) (Tree Label) :=
  match read with
  | .ok r => readLexemes r ls
  | .error e => .error (e, openTrees outer)

/-- What the reader comes to inside any open nodes. -/
abbrev Run := List OpenNode → Except (ReadError × List (Tree Label)) (Tree Label)

/-- In place, `f` has come to a planted tree with fewer than `length` lexemes behind it, or to trees
left behind by an error. The reader comes to the same. -/
inductive Mirrors (f : Forest) (run : Run) (length : Nat) : Progress → Prop
  | made {t : Tree Label} {rest : List (Lexeme Token)} (hlength : rest.length < length)
      (hrun : ∀ outer, run outer = readLexemes (.ofStage (afterTree outer t)) rest) :
      Mirrors f run length ((f.plant t).1, .ok ((f.plant t).2, rest))
  | failed {e : ReadError} (ts : List (Tree Label))
      (hrun : ∀ outer, run outer = .error (e, openTrees outer ++ ts)) :
      Mirrors f run length (f.plantAll ts, .error e)

theorem readLexemes_settle (hgrow : r.grow? l = none) (ls : List (Lexeme Token)) :
    readLexemes r (l :: ls) = readLexemes (.ofStage r.settle) (l :: ls) := by
  rw [readLexemes, readLexemes, hgrow, Reader.ofStage, grow?_settled]
  rfl

/-- A settled reader goes on with what it makes of the next lexeme. -/
theorem readLexemes_settled {stage : Stage} {read : Except ReadError Reader}
    {opened : List OpenNode} (hread : readIn outer stage l = read)
    (hopened : leftovers outer stage = openTrees opened) (ls : List (Lexeme Token)) :
    readLexemes (.settled outer stage) (l :: ls) = readOn opened read ls := by
  rw [readLexemes, grow?_settled]
  simp only [Reader.settle, hread, hopened]
  cases read <;> rfl

theorem grow?_pending_eq_none {opens mayHaveText : Bool}
    (hcolon : mayHaveText = true → l.token ≠ some .colon) (hposition : l.token ≠ some .position) :
    (Reader.pending outer opens label mayHaveText).grow? l = none := by
  rw [Reader.grow?.eq_def]
  split
  · simp_all
  · contradiction
  · rfl

/-- A position may follow a node that has its text. -/
theorem exists_takePosition (f : Forest) (label : Label) (ls : List (Lexeme Token))
    (mayHaveText : Bool) (hcolon : mayHaveText = true → ∀ l ∈ ls.head?, l.token ≠ some .colon) :
    ∃ label' rest, takePosition (f.alloc label).1 f.size ls = ((f.alloc label').1, rest) ∧
      rest.length ≤ ls.length ∧ ∀ outer opens,
        readLexemes (.pending outer opens label mayHaveText) ls =
          readLexemes (.ofStage (afterNode outer opens label')) rest := by
  cases ls with
  | nil => exact ⟨label, [], rfl, Nat.le_refl _, fun _ _ => rfl⟩
  | cons l ls =>
    by_cases hl : l.token = some .position
    · refine ⟨{ label with position := positionOf (l.chars.drop 1) }, ls, ?_, by simp,
        fun outer opens => ?_⟩
      · rw [takePosition, if_pos hl, Forest.setPosition, Forest.relabel_alloc]
      · exact reads_of_grow (by simp only [Reader.grow?, hl]) ls
    · refine ⟨label, l :: ls, ?_, Nat.le_refl _, fun outer opens => readLexemes_settle ?_ ls⟩
      · rw [takePosition, if_neg hl]
      · exact grow?_pending_eq_none (fun h => hcolon h l rfl) hl

/-- What follows the kind of a node in place, and what the reader makes of it. -/
theorem takeText_cases (f : Forest) (kind : Kind) (ls : List (Lexeme Token)) :
    (∃ e, takeText kind ls = .error e ∧ ∀ outer opens,
      readLexemes (.pending outer opens (.ofKind kind) true) ls = .error (e, openTrees outer)) ∨
    ∃ text behind label rest, takeText kind ls = .ok (text, behind) ∧
      takePosition (f.alloc (.make kind text)).1 f.size behind = ((f.alloc label).1, rest) ∧
      rest.length ≤ ls.length ∧ ∀ outer opens,
        readLexemes (.pending outer opens (.ofKind kind) true) ls =
          readLexemes (.ofStage (afterNode outer opens label)) rest := by
  cases ls with
  | nil =>
    obtain ⟨label, rest, hplace⟩ := exists_takePosition f (.ofKind kind) [] true (by simp)
    exact .inr ⟨kind.name, [], label, rest, rfl, hplace⟩
  | cons colon ls =>
    by_cases hcolon : colon.token = some .colon
    · have hgrow : ∀ outer opens, readLexemes (.pending outer opens (.ofKind kind) true)
          (colon :: ls) = readLexemes (.settled outer (.text opens kind)) ls := by
        intro outer opens
        refine reads_of_grow ?_ ls
        simp only [Reader.grow?, hcolon]
        rfl
      cases ls with
      | nil =>
        refine .inl ⟨.unexpectedEnd .text, ?_, fun outer opens => ?_⟩
        · rw [takeText, if_pos hcolon]
        · rw [hgrow]
          rfl
      | cons l ls =>
        by_cases hl : l.token = some .word ∨ l.token = some .quoted ∨ l.token = some .braced
        · obtain ⟨label, rest, htake, hlength, hrun⟩ :=
            exists_takePosition f (.make kind l.text) ls false
              (fun hfalse => absurd hfalse Bool.false_ne_true)
          refine .inr ⟨l.text, ls, label, rest, ?_, htake, Nat.le_succ_of_le
            (Nat.le_succ_of_le hlength), fun outer opens => ?_⟩
          · rw [takeText, if_pos hcolon]
            rcases hl with hl | hl | hl <;> simp only [hl]
          · rw [hgrow, ← hrun]
            exact readLexemes_settled (readIn_text hl outer opens kind) rfl ls
        · have hread : ∀ outer opens, readIn outer (.text opens kind) l = unexpected l .text := by
            intro outer opens
            rw [readIn]
            split <;> simp_all
          refine .inl ⟨.unexpected l.text l.offset .text, ?_, fun outer opens => ?_⟩
          · rw [takeText, if_pos hcolon]
            split <;> simp_all [unexpected]
          · rw [hgrow]
            exact readLexemes_settled (hread outer opens) rfl ls
    · obtain ⟨label, rest, hplace⟩ := exists_takePosition f (.ofKind kind) (colon :: ls) true
        (fun _ l hl => by
          obtain rfl := Option.some.inj hl
          exact hcolon)
      refine .inr ⟨kind.name, colon :: ls, label, rest, ?_, hplace⟩
      rw [takeText.eq_def]
      exact if_neg hcolon

/-- A leaf in place, and what the reader makes of it. -/
theorem makeLeaf_cases (f : Forest) (hl : l.token = some .word) (ls : List (Lexeme Token)) :
    (∃ e, makeLeaf f (l :: ls) = (f, .error e) ∧ ∀ outer opens,
      readOn outer (readKind outer opens l) ls = .error (e, openTrees outer)) ∨
    ∃ label rest, makeLeaf f (l :: ls) = ((f.alloc label).1, .ok (f.size, rest)) ∧
      rest.length ≤ ls.length ∧ ∀ outer opens,
        readOn outer (readKind outer opens l) ls =
          readLexemes (.ofStage (afterNode outer opens label)) rest := by
  cases hkind : Kind.ofName? l.text with
  | none =>
    refine .inl ⟨.unknownKind l.text l.offset, ?_, fun outer opens => ?_⟩
    · rw [makeLeaf, if_pos hl, hkind]
    · rw [readKind, hkind]
      rfl
  | some kind =>
    have hread : ∀ outer opens, readOn outer (readKind outer opens l) ls =
        readLexemes (.pending outer opens (.ofKind kind) true) ls := by
      intro outer opens
      rw [readKind, hkind]
      rfl
    rcases takeText_cases f kind ls with ⟨e, htext, hrun⟩ | ⟨text, behind, label, rest, htext,
      hplace, hlength, hrun⟩
    · refine .inl ⟨e, ?_, fun outer opens => (hread outer opens).trans (hrun outer opens)⟩
      rw [makeLeaf, if_pos hl, hkind]
      simp only [htext]
    · refine .inr ⟨label, rest, ?_, hlength, fun outer opens =>
        (hread outer opens).trans (hrun outer opens)⟩
      rw [makeLeaf, if_pos hl, hkind]
      simp only [htext, Forest.alloc_snd, hplace]

theorem openTrees_cons (n : OpenNode) (outer : List OpenNode) :
    openTrees (n :: outer) = openTrees outer ++ [n.tree] := by
  simp [openTrees]

/-- Inside an open node, what comes next is its closing parenthesis or a node. -/
theorem readLexemes_inside (hl : l.token ≠ some .closing) (outer : List OpenNode) (n : OpenNode)
    (ls : List (Lexeme Token)) :
    readLexemes (.settled outer (.inside n)) (l :: ls) =
      readOn (n :: outer) (readNode (n :: outer) l) ls :=
  readLexemes_settled (by rw [readIn, if_neg hl]) rfl ls

theorem readLexemes_start (l : Lexeme Token) (ls : List (Lexeme Token)) :
    readLexemes (.settled [] .start) (l :: ls) = readOn [] (readNode [] l) ls :=
  readLexemes_settled rfl rfl ls

/-- Making nodes below a new node mirrors reading inside it. -/
def ChildrenMirror (bound : Nat) : Prop :=
  ∀ (f : Forest) (label : Label) (done : List (Tree Label)) (ls : List (Lexeme Token)),
    f.WellFormed → 2 * ls.length < bound →
    ∃ progress, makeChildren (f.plant (.node label done)).1 f.size bound ls = .ok progress ∧
      Mirrors f (fun outer => readLexemes (.settled outer (.inside ⟨label, done.reverse⟩)) ls)
        (ls.length + 1) progress

/-- Making a node mirrors reading it. -/
def NodeMirrors (bound : Nat) : Prop :=
  ∀ (f : Forest) (l : Lexeme Token) (ls : List (Lexeme Token)),
    f.WellFormed → 2 * ls.length + 1 < bound →
    ∃ progress, makeNode f bound (l :: ls) = .ok progress ∧
      Mirrors f (fun outer => readOn outer (readNode outer l) ls) (ls.length + 1) progress

theorem Mirrors.congr {run run' : Run} {length length' : Nat} {progress : Progress}
    (h : Mirrors f run length progress) (hrun : ∀ outer, run' outer = run outer)
    (hlength : length ≤ length') : Mirrors f run' length' progress := by
  cases h with
  | made hrest h =>
    exact .made (Nat.lt_of_lt_of_le hrest hlength) fun outer => (hrun outer).trans (h outer)
  | failed ts h => exact .failed ts fun outer => (hrun outer).trans (h outer)

/-- An error before any node is made leaves nothing behind. -/
theorem Mirrors.refused {run : Run} {length : Nat} {e : ReadError}
    (hrun : ∀ outer, run outer = .error (e, openTrees outer)) :
    Mirrors f run length (f, .error e) :=
  .failed [] fun outer => by rw [hrun, List.append_nil]

theorem ChildrenMirror.nodeMirrors (h : ChildrenMirror bound) : NodeMirrors (bound + 1) := by
  intro f l ls hf hbound
  rw [makeNode]
  split
  · rename_i hl
    have hread : ∀ outer, readOn outer (readNode outer l) ls =
        readLexemes (.settled outer .head) ls := by
      intro outer
      rw [readNode, hl]
      rfl
    cases ls with
    | nil => exact ⟨_, rfl, .refused hread⟩
    | cons k ls =>
      by_cases hk : k.token = some .word
      · have hhead : ∀ outer, readLexemes (.settled outer .head) (k :: ls) =
            readOn outer (readKind outer true k) ls :=
          fun outer => readLexemes_settled (by rw [readIn, if_pos hk]) rfl ls
        rw [List.length_cons] at hbound
        rcases makeLeaf_cases f hk ls with ⟨e, hmake, hrun⟩ | ⟨label, rest, hmake, hlength, hrun⟩
        · refine ⟨(f, .error e), by rw [hmake], .refused fun outer => ?_⟩
          rw [hread, hhead, hrun]
        · obtain ⟨progress, hchildren, hmirrors⟩ := h f label [] rest hf (by omega)
          refine ⟨progress, by rw [hmake]; exact hchildren, hmirrors.congr (fun outer => ?_) ?_⟩
          · rw [hread, hhead, hrun]
            rfl
          · rw [List.length_cons]
            omega
      · refine ⟨(f, unexpected k .kind), by rw [makeLeaf, if_neg hk]; rfl,
          .refused fun outer => ?_⟩
        have hrefused : readIn outer .head k = unexpected k .kind := by rw [readIn, if_neg hk]
        rw [hread]
        exact readLexemes_settled hrefused rfl ls
  · rename_i hl
    have hread : ∀ outer, readNode outer l = readKind outer false l := by
      intro outer
      rw [readNode, hl]
    refine ⟨_, rfl, ?_⟩
    rcases makeLeaf_cases f hl ls with ⟨e, hmake, hrun⟩ | ⟨label, rest, hmake, hlength, hrun⟩
    · rw [hmake]
      exact .refused fun outer => by rw [hread, hrun]
    · rw [hmake]
      exact .made (t := .leaf label) (Nat.lt_succ_of_le hlength) fun outer => by
        rw [hread, hrun]
        rfl
  · refine ⟨_, rfl, .refused fun outer => ?_⟩
    have hread : readNode outer l = unexpected l .node := by
      rw [readNode.eq_def]
      split <;> simp_all
    rw [hread]
    rfl

/-- A further tree below a planted one. -/
theorem plant_concat (f : Forest) (label : Label) (done : List (Tree Label)) (t : Tree Label) :
    (f.plant (.node label (done ++ [t]))).1 =
      (((f.plant (.node label done)).1.plant t).1.link f.size
        ((f.plant (.node label done)).1.plant t).2
        (((f.plant (.node label done)).1.plant t).1.childCount f.size)) := by
  rw [Forest.plant, Forest.plant, Forest.plantBelow_append]
  rfl

theorem ChildrenMirror.succ (h : ChildrenMirror bound) (hnode : NodeMirrors bound) :
    ChildrenMirror (bound + 1) := by
  intro f label done ls hf hbound
  have hplanted := Forest.planted_plant hf (.node label done)
  have hopen : (OpenNode.mk label done.reverse).tree = .node label done := by
    rw [OpenNode.tree, List.reverse_reverse]
  cases ls with
  | nil =>
    refine ⟨_, rfl, .failed [.node label done] fun outer => ?_⟩
    rw [← hopen, ← openTrees_cons]
    rfl
  | cons l ls =>
    rw [List.length_cons] at hbound
    rw [makeChildren]
    by_cases hl : l.token = some .closing
    · rw [if_pos hl]
      have hlength : ls.length < (l :: ls).length + 1 := Nat.lt_succ_of_lt (Nat.lt_succ_self _)
      refine ⟨_, rfl, .made (t := .node label done) hlength fun outer => ?_⟩
      have hclosed : readIn outer (.inside ⟨label, done.reverse⟩) l =
          .ok (.ofStage (afterTree outer (.node label done))) := by
        rw [readIn, if_pos hl, hopen]
      have hleft : leftovers outer (.inside ⟨label, done.reverse⟩) =
          openTrees (⟨label, done.reverse⟩ :: outer) := rfl
      exact readLexemes_settled hclosed hleft ls
    · obtain ⟨progress, hmake, hmirrors⟩ := hnode _ l ls hplanted.wellFormed (by omega)
      rw [if_neg hl, hmake]
      cases hmirrors with
      | @failed e ts hrun =>
        refine ⟨_, rfl, .failed (.node label done :: ts) fun outer => ?_⟩
        rw [readLexemes_inside hl, hrun, openTrees_cons, hopen, List.append_assoc]
        rfl
      | @made t rest hlength hrun =>
        -- With its new child, the node is one that was planted with one more tree below it.
        obtain ⟨progress, hchildren, hmore⟩ := h f label (done ++ [t]) rest hf (by omega)
        have hpush : ((f.plant (.node label done)).1.plant t).1.pushChild f.size
            ((f.plant (.node label done)).1.plant t).2 =
              .ok (f.plant (.node label (done ++ [t]))).1 := by
          rw [plant_concat]
          exact (Forest.planted_plant hplanted.wellFormed t).pushChild_eq_link
            hplanted.wellFormed hplanted.root_lt
        have hshorter : rest.length + 1 ≤ (l :: ls).length + 1 :=
          Nat.succ_le_succ (Nat.le_of_lt hlength)
        refine ⟨progress, ?_, hmore.congr (fun outer => ?_) hshorter⟩
        · simp only [hpush, hchildren]
        · rw [readLexemes_inside hl, hrun, List.reverse_append]
          rfl

theorem childrenMirror_and_nodeMirrors (bound : Nat) :
    ChildrenMirror bound ∧ NodeMirrors bound := by
  -- Either descends into both with one step less to go.
  induction bound with
  | zero => exact ⟨fun _ _ _ _ _ h => absurd h (Nat.not_lt_zero _),
      fun _ _ _ _ h => absurd h (Nat.not_lt_zero _)⟩
  | succ bound ih => exact ⟨ih.1.succ ih.2, ih.1.nodeMirrors⟩

/-- Reading in place is never refused, and leaves the same forest with the same answer as the
reader that makes all nodes at the end. -/
theorem readInPlace_eq (hf : f.WellFormed) (source : String) :
    readInPlace f source = .ok (f.read source) := by
  rw [readInPlace, Forest.read, read]
  cases hfind : (Lexeme.readAll scan source.toList).find? (·.token.isNone) with
  | some l => rfl
  | none =>
    simp only
    generalize (Lexeme.readAll scan source.toList).filter (·.token ≠ some .gap) = seen
    cases seen with
    | nil => rfl
    | cons l ls =>
      obtain ⟨progress, hmake, hmirrors⟩ :=
        (childrenMirror_and_nodeMirrors (2 * (l :: ls).length + 1)).2 f l ls hf
          (by rw [List.length_cons]; omega)
      rw [hmake, readLexemes_start]
      cases hmirrors with
      | @failed e ts hrun =>
        rw [hrun]
        rfl
      | @made t rest hlength hrun =>
        rw [hrun]
        cases rest with
        | nil => rfl
        | cons k rest =>
          have hrefused : readLexemes (.ofStage (afterTree [] t)) (k :: rest) =
              .error (.unexpected k.text k.offset .ending, [t]) := by
            rw [readLexemes, afterTree, Reader.ofStage, grow?_settled]
            rfl
          rw [hrefused]
          rfl

end TreeText

end GrammarTrees
