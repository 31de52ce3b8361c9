/-
# Pipelines in front of a syntax error

A line of pipelines that are complete, each ended by `;` or `&`, and then something
that is no pipeline. What `parse` returns should be the pipelines, and it is after
most errors: the pipe with the error in it is lost and those in front of it stay
(`read_invalid`). It is not if an operator stands where the next pipeline is to
begin. A connector there is taken for one behind the last pipeline, which is joined
with what follows or lost with it (`read_grown`). At a redirection `mkPipe` returns
`NULL` and reads nothing, the calls around it try again, and of all the pipelines
only the first one is left.

Key definitions: `Item`, `Stage`, `Finished`, `Finished.tokens`, `Finished.view`, `invalid`, `operatorFirst`.
Key theorems: `read_items`, `read_finished`, `read_invalid`, `read_grown`, `finished_kept_iff`.
-/
import Csc501.Shell.Reader

namespace Csc501
namespace Shell

open Lib

/-! ### Complete pipelines -/

/-- What can stand in a command behind its first word, in any order. -/
inductive Item
  | word (x : Text)
  | infile (x : Text)
  | outfile (r : Redirect) (x : Text)
  deriving DecidableEq, Repr

namespace Item

def tokens : Item → List (Token × Text)
  | word x => [(.tword, x)]
  | infile x => [(.tin, []), (.tword, x)]
  | outfile r x => [(r.token, []), (.tword, x)]

def isIn : Item → Bool
  | infile _ => true
  | _ => false

def isOut : Item → Bool
  | outfile _ _ => true
  | _ => false

/-- What it makes of a command. -/
def apply (v : CmdView) : Item → CmdView
  | word x => { v with nargs := v.nargs + 1, argv := v.argv ++ [.word (cstr x)] }
  | infile x => { v with inp := .tin, infile := some (cstr x) }
  | outfile r x => { v with out := r.token, outfile := some (cstr x) }

end Item

/-- A command of a pipeline. -/
structure Stage where
  first : Text
  items : List Item
  deriving DecidableEq, Repr

def Stage.tokens (c : Stage) : List (Token × Text) := (.tword, c.first) :: c.items.flatMap Item.tokens

/-- A command behind `inpipe`, without the `NULL`. -/
def Stage.view (inpipe : Token) (c : Stage) : CmdView :=
  c.items.foldl Item.apply ⟨.tsemi, inpipe, .tnil, none, none, 1, [.word (cstr c.first)]⟩

/-- Input and output are redirected at most once, connectors included. -/
def Stage.Fits (piped last : Bool) (c : Stage) : Prop :=
  c.items.countP Item.isIn + piped.toNat ≤ 1 ∧ c.items.countP Item.isOut + (!last).toNat ≤ 1

instance (piped last : Bool) (c : Stage) : Decidable (c.Fits piped last) := inferInstanceAs (Decidable (_ ∧ _))

/-- So they are in each command from one on. -/
def Fit : Bool → Stage → List (Ptype × Stage) → Prop
  | piped, c, [] => c.Fits piped true
  | piped, c, (_, d) :: more => c.Fits piped false ∧ Fit true d more

instance decidableFit : ∀ (piped : Bool) (c : Stage) (more : List (Ptype × Stage)), Decidable (Fit piped c more)
  | _, _, [] => inferInstanceAs (Decidable (Stage.Fits _ _ _))
  | _, _, (_, d) :: more =>
    have := decidableFit true d more
    inferInstanceAs (Decidable (_ ∧ _))

/-- A pipeline that is complete and ended by `;` or `&`. -/
structure Finished where
  head : Stage
  more : List (Ptype × Stage)
  background : Bool
  fit : Fit false head more

def Finished.term (p : Finished) : Token := if p.background then .tamp else .tsemi

/-- The commands behind connectors. -/
def moreTokens (more : List (Ptype × Stage)) : List (Token × Text) :=
  more.flatMap fun x => (x.1.token, []) :: x.2.tokens

def Finished.tokens (p : Finished) : List (Token × Text) := p.head.tokens ++ (moreTokens p.more ++ [(p.term, [])])

/-- The commands from one on, with the connectors on both sides. -/
def stageViews (exec : Token) : Token → Stage → List (Ptype × Stage) → List CmdView
  | inpipe, c, [] => [{ c.view inpipe with exec := exec, argv := (c.view inpipe).argv ++ [.null] }]
  | inpipe, c, (t, d) :: more =>
    { c.view inpipe with out := t.token, argv := (c.view inpipe).argv ++ [.null] } :: stageViews exec t.token d more

/-- The pipe for a pipeline, whose type is that of its last connector. -/
def Finished.view (p : Finished) : Ptype × List CmdView × Bool :=
  ((p.more.map Prod.fst).getLast?.getD .pout, stageViews p.term .tnil p.head p.more, false)

/-! ### They are read -/

section Reading

variable {l : List (Token × Text)} {k : Reading Text} {inp out : Bool}

theorem read_word (x : Text) (done : List (Built Text)) :
    trees.read (.inside inp out) (some k) done ((.tword, x) :: l) =
      trees.read (.inside inp out) (some (k.next .tword x)) done l :=
  read_next rfl (show (Where.inside inp out).step .tword = some (.inside inp out) from rfl) (by simp) done

theorem read_infile (x : Text) (done : List (Built Text)) :
    trees.read (.inside false out) (some k) done ((.tin, []) :: (.tword, x) :: l) =
      trees.read (.inside true out) (some ((k.next .tin []).file x)) done l := by
  rw [read_next rfl (show (Where.inside false out).step .tin = some (.redirect true out) from rfl) (by simp) done]
  exact read_file done

theorem read_outfile (r : Redirect) (x : Text) (done : List (Built Text)) :
    trees.read (.inside inp false) (some k) done ((r.token, []) :: (.tword, x) :: l) =
      trees.read (.inside inp true) (some ((k.next r.token []).file x)) done l := by
  have hstep : (Where.inside inp false).step r.token = some (.redirect inp true) := by cases r <;> rfl
  rw [read_next (Token.endOfInput_of_toFile r.toFile_token) hstep (by simp) done]
  exact read_file done

/-- What the command has so far, with one item more. -/
theorem sofar_word (x : Text) : (k.next .tword x).cmd.sofar id = Item.apply (k.cmd.sofar id) (.word x) := by
  simp [Reading.next, Simple.sofar, Item.apply]

theorem sofar_outfile (r : Redirect) (x : Text) :
    ((k.next r.token []).file x).cmd.sofar id = Item.apply (k.cmd.sofar id) (.outfile r x) := by
  cases r <;> rfl

/-- The items of a command. -/
theorem read_items : ∀ (items : List Item) {inp out : Bool} {k : Reading Text},
    items.countP Item.isIn + inp.toNat ≤ 1 → items.countP Item.isOut + out.toNat ≤ 1 →
    ∃ inp' k', k'.type = k.type ∧ k'.cmds = k.cmds ∧ k'.cmd.sofar id = items.foldl Item.apply (k.cmd.sofar id) ∧
      ∀ (l : List (Token × Text)) (done : List (Built Text)),
        trees.read (.inside inp out) (some k) done (items.flatMap Item.tokens ++ l) =
          trees.read (.inside inp' (out || items.any Item.isOut)) (some k') done l
  | [], inp, out, k, _, _ => ⟨inp, k, rfl, rfl, rfl, fun l done => by simp⟩
  | .word x :: items, inp, out, k, hi, ho => by
    rw [List.countP_cons_of_neg (by simp [Item.isIn])] at hi
    rw [List.countP_cons_of_neg (by simp [Item.isOut])] at ho
    obtain ⟨inp', k', ht, hc, hso, hread⟩ := read_items items (k := k.next .tword x) hi ho
    refine ⟨inp', k', ht, hc, ?_, ?_⟩
    · rw [hso, sofar_word]
      rfl
    · intro l done
      exact (read_word x done).trans (hread l done)
  | .infile x :: items, inp, out, k, hi, ho => by
    rw [List.countP_cons_of_pos (by simp [Item.isIn])] at hi
    rw [List.countP_cons_of_neg (by simp [Item.isOut])] at ho
    have hinp : inp = false := by
      cases inp with
      | false => rfl
      | true => exact absurd hi (by simp)
    subst hinp
    obtain ⟨inp', k', ht, hc, hso, hread⟩ := read_items items (k := (k.next .tin []).file x)
      (show items.countP Item.isIn + true.toNat ≤ 1 from hi) ho
    refine ⟨inp', k', ht, hc, hso, ?_⟩
    intro l done
    exact (read_infile x done).trans (hread l done)
  | .outfile r x :: items, inp, out, k, hi, ho => by
    rw [List.countP_cons_of_neg (by simp [Item.isIn])] at hi
    rw [List.countP_cons_of_pos (by simp [Item.isOut])] at ho
    have hout : out = false := by
      cases out with
      | false => rfl
      | true => exact absurd ho (by simp)
    subst hout
    obtain ⟨inp', k', ht, hc, hso, hread⟩ := read_items items (k := (k.next r.token []).file x) hi
      (show items.countP Item.isOut + true.toNat ≤ 1 from ho)
    refine ⟨inp', k', ?_, ?_, ?_, ?_⟩
    · rw [ht, file_type, next_type (Token.pipeToken_of_toFile r.toFile_token)]
    · rw [hc, file_cmds, next_cmds]
    · rw [hso, sofar_outfile]
      rfl
    · intro l done
      exact (read_outfile r x done).trans (hread l done)

theorem exec_foldl (items : List Item) (v : CmdView) : (items.foldl Item.apply v).exec = v.exec := by
  induction items generalizing v with
  | nil => rfl
  | cons i items ih =>
    rw [List.foldl_cons, ih]
    cases i <;> rfl

/-- The `;` or `&` behind a command. -/
theorem read_term {exec : Token} (hexec : exec.cmdToken = true) (hk : k.cmd.exec = .tsemi) : ∃ k', k'.type = k.type ∧
    k'.cmds = k.cmds ∧ k'.cmd.sofar id = { k.cmd.sofar id with exec := exec } ∧
    ∀ (l : List (Token × Text)) (done : List (Built Text)),
      trees.read (.inside inp out) (some k) done ((exec, []) :: l) = trees.read (.ended out) (some k') done l := by
  have hstep : (Where.inside inp out).step exec = some (.ended out) := by
    revert hexec
    cases exec <;> simp [Token.cmdToken, Where.step, Token.toFile]
  refine ⟨k.next exec [], ?_, next_cmds, ?_, fun l done => read_next (Token.endOfInput_of_cmdToken hexec) hstep (by simp) done⟩
  · apply next_type
    revert hexec
    cases exec <;> decide
  · revert hexec
    cases exec <;> simp [Token.cmdToken, Reading.next, Simple.sofar, Token.toFile, Token.pipeToken, hk]

/-- The connector behind a command, with the first word of the next one. -/
theorem read_join (t : Ptype) (x : Text) (done : List (Built Text)) :
    trees.read (.inside inp false) (some k) done ((t.token, []) :: (.tword, x) :: l) =
      trees.read (.inside (t.token ≠ .tnil) false)
        (some ⟨t, k.cmds ++ [{ k.cmd with out := t.token }], .new t.token x, .tnil⟩) done l := by
  have hstep : (Where.inside inp false).step t.token = some .connected := by cases t <;> rfl
  rw [read_next (Token.endOfInput_of_pipeToken t.pipeToken_token) hstep (by simp) done, next_pipe t.pipeToken_token,
    t.ptype_token]
  exact (opens_connected { k with type := t, cmd := { k.cmd with out := t.token } }).word done

/-- **The commands of a pipeline, from one on.** -/
theorem read_stages {exec : Token} (hexec : exec.cmdToken = true) : ∀ (more : List (Ptype × Stage)) (c : Stage)
    (inpipe : Token) (type : Ptype) (cmds : List (Simple Text)), Fit (inpipe ≠ .tnil) c more →
    ∃ k' out, (trees.close k').view id = ((more.map Prod.fst).getLast?.getD type,
        cmds.map (Simple.view id) ++ stageViews exec inpipe c more, false) ∧
      ∀ (l : List (Token × Text)) (done : List (Built Text)),
        trees.read (.inside (inpipe ≠ .tnil) false) (some ⟨type, cmds, .new inpipe c.first, .tnil⟩) done
          (c.items.flatMap Item.tokens ++ (moreTokens more ++ (exec, []) :: l)) =
          trees.read (.ended out) (some k') done l
  | [], c, inpipe, type, cmds, hfit => by
    obtain ⟨inp', k₁, ht, hc, hso, hread⟩ := read_items c.items (k := ⟨type, cmds, .new inpipe c.first, .tnil⟩)
      hfit.1 (show _ + false.toNat ≤ 1 from hfit.2)
    have hso₁ : k₁.cmd.sofar id = c.view inpipe := hso
    have hsemi : k₁.cmd.exec = .tsemi := (congrArg CmdView.exec hso₁).trans (exec_foldl c.items _)
    obtain ⟨k₂, ht₂, hc₂, hso₂, hread₂⟩ := read_term hexec hsemi
    refine ⟨k₂, _, ?_, fun l done => (hread _ done).trans (hread₂ l done)⟩
    simp only [Built.view, trees, ht₂, ht, hc₂, hc, List.map_append, List.map_singleton, Simple.view, hso₂, hso₁,
      stageViews]
    rfl
  | (t, d) :: more, c, inpipe, type, cmds, hfit => by
    obtain ⟨hfc, hfd⟩ := hfit
    have hno : c.items.countP Item.isOut = 0 := by
      have := hfc.2
      simpa using this
    obtain ⟨inp', k₁, ht, hc, hso, hread⟩ := read_items c.items (k := ⟨type, cmds, .new inpipe c.first, .tnil⟩)
      hfc.1 (show _ + false.toNat ≤ 1 by rw [hno]; decide)
    have hso₁ : k₁.cmd.sofar id = c.view inpipe := hso
    have hany : c.items.any Item.isOut = false := by
      rw [List.any_eq_false]
      exact List.countP_eq_zero.mp hno
    have hpiped : decide (t.token ≠ .tnil) = true := by cases t <;> rfl
    obtain ⟨k₂, out, hview, hread₂⟩ := read_stages hexec more d t.token t
      (k₁.cmds ++ [{ k₁.cmd with out := t.token }]) (hpiped ▸ hfd)
    refine ⟨k₂, out, ?_, ?_⟩
    · have hcmd : { k₁.cmd with out := t.token }.view id =
          { c.view inpipe with out := t.token, argv := (c.view inpipe).argv ++ [.null] } := by
        rw [← hso₁]
        rfl
      rw [hview, hc, List.map_append, List.map_singleton, hcmd, List.append_assoc, List.map_cons,
        List.getLast?_cons]
      rfl
    · intro l done
      have hlist : moreTokens ((t, d) :: more) ++ (exec, []) :: l =
          (t.token, []) :: (.tword, d.first) :: (d.items.flatMap Item.tokens ++ (moreTokens more ++ (exec, []) :: l)) := by
        simp [moreTokens, Stage.tokens]
      rw [hlist, hread, hany, Bool.or_false, read_join]
      exact hread₂ l done

/-- **A complete pipeline is read**, up to the `;` or `&` that ends it. -/
theorem read_finished (p : Finished) : ∃ k' out, (trees.close k').view id = p.view ∧
    ∀ (l : List (Token × Text)) (done : List (Built Text)),
      trees.read .start none done (p.tokens ++ l) = trees.read (.ended out) (some k') done l := by
  have hterm : p.term.cmdToken = true := by
    unfold Finished.term
    split_ifs
    · rfl
    · rfl
  obtain ⟨k', out, hview, hread⟩ := read_stages hterm p.more p.head .tnil .pout [] p.fit
  refine ⟨k', out, hview, ?_⟩
  intro l done
  have hlist : p.tokens ++ l =
      (.tword, p.head.first) :: (p.head.items.flatMap Item.tokens ++ (moreTokens p.more ++ (p.term, []) :: l)) := by
    simp [Finished.tokens, Stage.tokens]
  rw [hlist, opens_start.word done]
  exact hread l done

/-- So are the pipelines of a line: the last one is still to be added to those read. -/
theorem read_line : ∀ (ps : List Finished) (p : Finished) (done : List (Built Text)), ∃ bs k' out,
    (done ++ bs ++ [trees.close k']).map (Built.view id) = done.map (Built.view id) ++ (ps ++ [p]).map Finished.view ∧
      bs.length = ps.length ∧ ∀ l : List (Token × Text),
        trees.read .start none done ((ps ++ [p]).flatMap Finished.tokens ++ l) =
          trees.read (.ended out) (some k') (done ++ bs) l
  | [], p, done => by
    obtain ⟨k', out, hview, hread⟩ := read_finished p
    refine ⟨[], k', out, by simp [hview], rfl, ?_⟩
    intro l
    simpa using hread l done
  | q :: ps, p, done => by
    obtain ⟨k₁, out₁, hview₁, hread₁⟩ := read_finished q
    obtain ⟨bs, k', out, hview, hlen, hread⟩ := read_line ps p (done ++ [trees.close k₁])
    refine ⟨trees.close k₁ :: bs, k', out, ?_, by simp [hlen], ?_⟩
    · have h := hview
      simp only [List.map_append, List.map_cons, List.map_nil, hview₁, List.append_assoc, List.singleton_append] at h
      simpa [hview₁] using h
    · intro l
      obtain ⟨r, rs, hr⟩ : ∃ r rs, ps ++ [p] = r :: rs := List.exists_cons_of_ne_nil (by simp)
      have hcons : (ps ++ [p]).flatMap Finished.tokens ++ l = (.tword, r.head.first) ::
          (r.head.items.flatMap Item.tokens ++ (moreTokens r.more ++ [(r.term, [])]) ++ rs.flatMap Finished.tokens ++ l) := by
        rw [hr]
        simp [Finished.tokens, Stage.tokens]
      calc trees.read .start none done ((q :: ps ++ [p]).flatMap Finished.tokens ++ l)
          = trees.read .start none done (q.tokens ++ ((ps ++ [p]).flatMap Finished.tokens ++ l)) := by
            rw [List.cons_append, List.flatMap_cons, List.append_assoc]
        _ = trees.read (.ended out₁) (some k₁) done ((ps ++ [p]).flatMap Finished.tokens ++ l) := hread₁ _ done
        _ = trees.read .start none (done ++ [trees.close k₁]) ((ps ++ [p]).flatMap Finished.tokens ++ l) := by
            rw [hcons]
            exact Keeper.read_ended done rfl rfl
        _ = trees.read (.ended out) (some k') (done ++ [trees.close k₁] ++ bs) l := hread l
        _ = trees.read (.ended out) (some k') (done ++ trees.close k₁ :: bs) l := by
            rw [List.append_assoc]
            rfl

end Reading

/-! ### Errors -/

section Errors

variable {ω κ ρ : Type*}

/-- The token that ends the line leaves a pipe that is not complete. -/
def Where.cutOff : Where → Token → Bool
  | .connected, t => t ≠ .tend
  | .redirect _ _, _ => true
  | .ended _, _ => false
  | _, t => t = .terror

/-- From a place in it, the next pipe has an error before it is complete. -/
def invalid : Where → List (Token × ω) → Bool
  | _, [] => false
  | w, (t, _) :: l =>
    if t.endOfInput then w.cutOff t
    else if w ≠ .start && w.fresh t then false
    else
      match w.step t with
      | none => w = .start
      | some w' => w' = .skipping || invalid w' l

/-- An operator stands where the first word of a pipe is wanted. -/
def operatorFirst : List (Token × ω) → Bool
  | [] => false
  | (t, _) :: l => if t.cmdToken then operatorFirst l else t.isOperator

/-- A connector stands there. -/
def connectorFirst : List (Token × ω) → Bool
  | [] => false
  | (t, _) :: _ => t.pipeToken

/-- An error in a pipe that has begun: those in front of it are kept. -/
theorem read_invalid {K : Keeper ω κ ρ} : ∀ {l : List (Token × ω)} {w : Where} {k : Option κ} (done : List ρ),
    w ≠ .start → w ≠ .skipping → invalid w l = true → K.read w k done l = done
  | [], _, _, _, _, _, h => absurd h (by simp [invalid])
  | (t, x) :: l, w, k, done, hst, hsk, h => by
    rw [invalid] at h
    cases he : t.endOfInput with
    | true =>
      rw [if_pos he] at h
      rw [Keeper.read_end done he]
      have hnil : K.finish w k t = [] := by
        cases w with
        | start => exact absurd rfl hst
        | skipping => exact absurd rfl hsk
        | connected => exact if_neg (by simpa [Where.cutOff] using h)
        | inside _ _ => exact if_pos (by simpa [Where.cutOff] using h)
        | ended _ => exact absurd h (by simp [Where.cutOff])
        | redirect _ _ => rfl
      rw [hnil, List.append_nil]
    | false =>
      rw [he, if_neg (by simp)] at h
      split_ifs at h with hf
      cases hw : w.step t with
      | none =>
        rw [hw] at h
        exact absurd (of_decide_eq_true h) hst
      | some w' =>
        rw [hw] at h
        by_cases hskip : w' = .skipping
        · rw [Keeper.read_skipping done he (hskip ▸ hw)]
        · have hfresh : w.fresh t = false := by simpa [hst] using hf
          rw [Keeper.read_take done he hw hskip hfresh]
          exact read_invalid done (Where.step_ne_start hfresh hw) hskip (by simpa [hskip] using h)

/-- An error from the start of a pipe on. -/
theorem read_start_invalid {K : Keeper ω κ ρ} : ∀ {l : List (Token × ω)} (done : List ρ), invalid .start l = true →
    K.read .start none done l = if operatorFirst l then done.take 1 else done
  | [], _, h => absurd h (by simp [invalid])
  | (t, x) :: l, done, h => by
    have hnil : done ++ K.closed none = done := List.append_nil done
    rw [invalid] at h
    cases he : t.endOfInput with
    | true =>
      rw [if_pos he] at h
      obtain rfl : t = .terror := of_decide_eq_true h
      rw [Keeper.read_end done he]
      exact List.append_nil done
    | false =>
      rw [he, if_neg (by simp), if_neg (by simp)] at h
      cases hop : t.isOperator with
      | true =>
        have hfirst : operatorFirst ((t, x) :: l) = true := by
          simp [operatorFirst, (Token.isOperator_eq_true.mp hop).2.1, hop]
        rw [Keeper.read_stop done he (start_step_operator hop), hnil, hfirst, if_pos rfl]
      | false =>
        cases hcmd : t.cmdToken with
        | true =>
          have hstep : Where.start.step t = some .start := by simp [Where.step, Where.begin, hcmd]
          have hne : t ≠ .tword := by
            rintro rfl
            exact absurd hcmd (by decide)
          rw [hstep] at h
          rw [Keeper.read_fresh done he hstep (by simp) rfl, hnil, if_neg hne, operatorFirst, if_pos hcmd]
          exact read_start_invalid done (by simpa using h)
        | false =>
          obtain rfl : t = .tword := by
            by_contra hne
            exact absurd (hop.symm.trans (Token.isOperator_eq_true.mpr ⟨he, hcmd, hne⟩)) (by simp)
          have hstep : Where.start.step .tword = some (.inside false false) := rfl
          rw [hstep] at h
          have hfirst : operatorFirst ((.tword, x) :: l) = false := rfl
          rw [Keeper.read_fresh done he hstep (by simp) rfl, hnil, if_pos rfl, hfirst, if_neg (by simp)]
          exact read_invalid done (by simp) (by simp) (by simpa using h)

/-- The pipes that are read stay, or only the first one does. -/
theorem read_shape {K : Keeper ω κ ρ} : ∀ (l : List (Token × ω)) (w : Where) (k : Option κ) (done : List ρ),
    ∃ rs, K.read w k done l = done ++ rs ∨ K.read w k done l = (done ++ rs).take 1
  | [], _, _, done => ⟨[], .inl (List.append_nil done).symm⟩
  | (t, x) :: l, w, k, done => by
    cases w.turn t with
    | ends he => exact ⟨_, .inl (Keeper.read_end done he)⟩
    | stops he hw => exact ⟨_, .inr (Keeper.read_stop done he hw)⟩
    | skips he hw => exact ⟨[], .inl ((Keeper.read_skipping done he hw).trans (List.append_nil done).symm)⟩
    | begins w' he hw hne hf =>
      rw [Keeper.read_fresh done he hw hne hf]
      obtain ⟨rs, hrs⟩ := read_shape l w' (if t = .tword then some (K.first x) else none) (done ++ K.closed k)
      rw [List.append_assoc] at hrs
      exact ⟨_, hrs⟩
    | goes w' he hw hne hf =>
      rw [Keeper.read_take done he hw hne hf]
      exact read_shape l w' _ done

/-- How many commands the pipe being read has, with one that must still come. -/
def Reading.count (w : Where) (k : Reading ω) : ℕ := k.cmds.length + if w = .connected then 2 else 1

/-- No token makes them fewer. -/
theorem count_take {w w' : Where} {t : Token} {x : ω} {k : Reading ω} (hw : w.step t = some w') (hst : w ≠ .start)
    (hskip : w' ≠ .skipping) : k.count w ≤ (trees.take k w t x).count w' := by
  by_cases hc : w = .connected
  · subst hc
    simp only [Where.step] at hw
    split_ifs at hw with h1 h2
    · have hne : t ≠ .tword := by
        rintro rfl
        exact absurd h1 (by decide)
      cases hw
      simp [trees, hne, Reading.count]
    · cases hw
      simp [trees, h2, Reading.count]
    · cases hw
      exact absurd rfl hskip
  · have hsame : (trees.take k w t x).cmds = k.cmds := by
      cases w with
      | start => exact absurd rfl hst
      | connected => exact absurd rfl hc
      | redirect _ _ => exact file_cmds
      | _ => exact next_cmds
    unfold Reading.count
    rw [if_neg hc, hsame]
    split_ifs
    · omega
    · exact le_rfl

/-- **Behind a connector the pipe grows, or is lost**: no pipe takes the place of
the one in front of it. -/
theorem read_grown : ∀ {l : List (Token × ω)} {w : Where} {k : Reading ω} (done : List (Built ω)), w ≠ .start →
    trees.read w (some k) done l = done ∨
      ∃ b rs, (b.atEnd = true ∨ k.count w ≤ b.cmds.length) ∧
        (trees.read w (some k) done l = done ++ b :: rs ∨ trees.read w (some k) done l = (done ++ b :: rs).take 1)
  | [], _, _, _, _ => .inl rfl
  | (t, x) :: l, w, k, done, hst => by
    have hclose : w ≠ .connected → k.count w ≤ (trees.close k).cmds.length := by
      intro hc
      simp [Reading.count, hc, trees]
    cases w.turn t with
    | ends he =>
      rw [Keeper.read_end done he]
      cases w with
      | start => exact absurd rfl hst
      | connected =>
        by_cases ht : t = .tend
        · subst ht
          exact .inr ⟨trees.ended k, [], .inl rfl, .inl rfl⟩
        · refine .inl ?_
          rw [show trees.finish .connected (some k) t = [] from if_neg ht, List.append_nil]
      | inside inp out =>
        by_cases ht : t = .terror
        · refine .inl ?_
          rw [show trees.finish (.inside inp out) (some k) t = [] from if_pos ht, List.append_nil]
        · refine .inr ⟨trees.close k, [], .inr (hclose (by simp)), .inl ?_⟩
          rw [show trees.finish (.inside inp out) (some k) t = [trees.close k] from if_neg ht]
      | ended out => exact .inr ⟨trees.close k, [], .inr (hclose (by simp)), .inl rfl⟩
      | redirect inp out => exact .inl (List.append_nil done)
      | skipping => exact .inl (List.append_nil done)
    | stops he hw =>
      have hne : w ≠ .connected := by
        rintro rfl
        revert hw
        cases t <;> decide
      exact .inr ⟨trees.close k, [], .inr (hclose hne), .inr (Keeper.read_stop done he hw)⟩
    | skips he hw => exact .inl (Keeper.read_skipping done he hw)
    | begins w' he hw hskip hf =>
      have hne : w ≠ .connected := by
        rintro rfl
        exact absurd hf (by simp [Where.fresh])
      rw [Keeper.read_fresh done he hw hskip hf]
      obtain ⟨rs, hrs⟩ := read_shape (K := trees) l w' (if t = .tword then some (trees.first x) else none)
        (done ++ [trees.close k])
      rw [List.append_assoc] at hrs
      exact .inr ⟨trees.close k, rs, .inr (hclose hne), hrs⟩
    | goes w' he hw hskip hf =>
      rw [Keeper.read_take done he hw hskip hf]
      rcases read_grown (k := trees.take k w t x) done (Where.step_ne_start hf hw) with h | ⟨b, rs, hb, h⟩
      · exact .inl h
      · exact .inr ⟨b, rs, hb.imp_right (count_take hw hst hskip).trans, h⟩

/-- A pipe that has grown is another one. -/
theorem grown_ne {f : ω → Text} {k : Reading ω} {b : Built ω} (hb : b.atEnd = true ∨ k.cmds.length + 2 ≤ b.cmds.length) :
    b.view f ≠ (trees.close k).view f := by
  intro h
  rcases hb with hat | hlen
  · have hflag : b.atEnd = false := congrArg (fun v => v.2.2) h
    exact absurd (hat.symm.trans hflag) (by simp)
  · have hcmds := congrArg (fun v => v.2.1.length) h
    simp only [Built.view, trees, List.length_map, List.length_append, List.length_singleton] at hcmds
    omega

/-- A connector behind the last of the pipelines. -/
theorem read_connector {f : ω → Text} {t : Token} {x : ω} {l : List (Token × ω)} {out : Bool} {k : Reading ω}
    (done : List (Built ω)) (hp : t.pipeToken = true) :
    (trees.read (.ended out) (some k) done ((t, x) :: l)).map (Built.view f) ≠
      (done ++ [trees.close k]).map (Built.view f) := by
  have he := Token.endOfInput_of_pipeToken hp
  have hlost : ∀ {bs : List (Built ω)}, bs = done → bs.map (Built.view f) ≠ (done ++ [trees.close k]).map (Built.view f) := by
    rintro bs rfl h
    exact absurd (congrArg List.length h) (by simp)
  cases out with
  | true =>
    have hstep : (Where.ended true).step t = some .skipping := by simp [Where.step, hp, Where.connect]
    exact hlost (Keeper.read_skipping done he hstep)
  | false =>
    have hstep : (Where.ended false).step t = some .connected := by simp [Where.step, hp, Where.connect]
    have hf : (Where.ended false).fresh t = false := by simp [Where.fresh, hp]
    rw [Keeper.read_take done he hstep (by simp) hf, Option.map_some]
    rcases read_grown (k := trees.take k (.ended false) t x) done (show Where.connected ≠ .start by simp)
      with h | ⟨b, rs, hb, h⟩
    · exact hlost h
    · have hcount : (trees.take k (.ended false) t x).count .connected = k.cmds.length + 2 :=
        congrArg (·.length + 2) (next_cmds (k := k))
      rw [hcount] at hb
      intro heq
      apply grown_ne hb (f := f)
      rcases h with h | h
      · rw [h, List.map_append, List.map_append] at heq
        exact (List.cons.inj (List.append_cancel_left heq)).1
      · rw [h] at heq
        -- there is no pipe in front, or it would be the only one left
        have hnil : done = [] := by
          have hlen := congrArg List.length heq
          simp only [List.length_map, List.length_take, List.length_append, List.length_cons] at hlen
          exact List.length_eq_zero_iff.mp (by omega)
        subst hnil
        exact (List.cons.inj heq).1

/-- **What follows the last pipeline decides**: with an error in it, all the
pipelines are kept exactly if no connector comes next, and no other operator either,
unless there is only one pipeline. -/
theorem read_error {f : ω → Text} {rest : List (Token × ω)} {out : Bool} {k : Reading ω} (done : List (Built ω))
    (hbad : invalid .start rest = true) :
    (trees.read (.ended out) (some k) done rest).map (Built.view f) = (done ++ [trees.close k]).map (Built.view f) ↔
      connectorFirst rest = false ∧ (done = [] ∨ operatorFirst rest = false) := by
  obtain ⟨⟨t, x⟩, l, rfl⟩ : ∃ a l, rest = a :: l := by
    cases rest with
    | nil => exact absurd hbad (by simp [invalid])
    | cons a l => exact ⟨a, l, rfl⟩
  cases hp : t.pipeToken with
  | true =>
    refine iff_of_false (read_connector done hp) ?_
    rintro ⟨hno, -⟩
    exact absurd (hp.symm.trans hno) (by simp)
  | false =>
    have hstart : trees.read (.ended out) (some k) done ((t, x) :: l) =
        trees.read .start none (done ++ [trees.close k]) ((t, x) :: l) := by
      cases he : t.endOfInput with
      | true =>
        rw [invalid, if_pos he] at hbad
        obtain rfl : t = .terror := of_decide_eq_true hbad
        rw [Keeper.read_end done he, Keeper.read_end _ he]
        exact (List.append_nil _).symm
      | false => exact Keeper.read_ended done he hp
    rw [hstart, read_start_invalid _ hbad]
    simp only [connectorFirst, hp, true_and]
    split_ifs with hop
    · rw [hop]
      simp only [Bool.true_eq_false, or_false]
      constructor
      · intro h
        have hlen := congrArg List.length h
        simp only [List.length_map, List.length_take, List.length_append, List.length_singleton] at hlen
        exact List.length_eq_zero_iff.mp (by omega)
      · rintro rfl
        rfl
    · exact iff_of_true rfl (.inr (Bool.eq_false_iff.mpr hop))

end Errors

/-- **The pipelines in front of an error are returned exactly if** what follows them
does not begin with a connector, nor, behind two pipelines or more, with another
operator in place of a first word. -/
theorem finished_kept_iff {s : St} {ps : List Finished} {rest : List (Token × Text)} (hne : ps ≠ [])
    (hline : lineTokens s = ps.flatMap Finished.tokens ++ rest) (hbad : invalid .start rest = true) :
    ∃ qs s', parse s = some (qs, s') ∧
      (qs.map Pipe.view = ps.map Finished.view ↔
        connectorFirst rest = false ∧ (ps.length = 1 ∨ operatorFirst rest = false)) := by
  obtain ⟨qs, s', hr, -⟩ := parse_ok s
  refine ⟨qs, s', hr, ?_⟩
  obtain ⟨e, hfol⟩ := follows_line s
  obtain ⟨init, p, rfl⟩ := (List.eq_nil_or_concat' ps).resolve_left hne
  obtain ⟨bs, k, out, hview, hlen, hread⟩ := read_line init p []
  have hone : (init ++ [p]).length = 1 ↔ bs = [] := by
    rw [List.length_append, ← hlen, List.length_singleton, ← List.length_eq_zero_iff]
    omega
  have hviews : (init ++ [p]).map Finished.view = (bs ++ [trees.close k]).map (Built.view id) := by
    rw [← List.nil_append bs, hview]
    rfl
  rw [(parse_read hfol hr).1, hline, hread, hviews, hone]
  exact read_error bs hbad

/-- The pipelines `a ;` and `b ;`. -/
def finishedA : Finished := ⟨⟨"a".toList, []⟩, [], false, by decide⟩

def finishedB : Finished := ⟨⟨"b".toList, []⟩, [], false, by decide⟩

/-- Of two pipelines in front of a redirection without a command, only the first is
returned. -/
theorem finished_lost : lineTokens (.init "a ; b ; < c\n".toList) = [finishedA, finishedB].flatMap Finished.tokens ++
      [(.tin, []), (.tword, "c".toList), (.tnl, [])] ∧
    invalid .start [(Token.tin, ([] : Text)), (.tword, "c".toList), (.tnl, [])] = true ∧
    (parse (.init "a ; b ; < c\n".toList)).map (fun r => r.1.map Pipe.view) = some [finishedA.view] ∧
    [finishedA.view] ≠ [finishedA, finishedB].map Finished.view := by
  decide

theorem finished_kept_iff_unmatched : invalid .start [(Token.tword, "c".toList), (.terror, [])] = true ∧
    ∃ qs s', parse (.init "a ; b ; c 'd\n".toList) = some (qs, s') ∧
      qs.map Pipe.view = [finishedA, finishedB].map Finished.view := by
  have hbad : invalid .start [(Token.tword, "c".toList), (.terror, [])] = true := by decide
  obtain ⟨qs, s', hr, hiff⟩ := finished_kept_iff (s := .init "a ; b ; c 'd\n".toList)
    (show [finishedA, finishedB] ≠ [] by simp) (by decide) hbad
  exact ⟨hbad, qs, s', hr, hiff.mpr (by decide)⟩

end Shell
end Csc501
