import Camlet.Proofs.Limits
import Camlet.Proofs.Runs

/-
  Overflows. Two limits stop an evaluation that is nested too deeply, and each of them has an error of its
  own. A larger limit of nested applications takes such errors away and changes nothing else: where there is
  none under the smaller limit, all outcomes are the same under the larger one, the other errors with their
  places and texts included, and so is the environment that they leave.

  The larger limit must be one under which evaluation starts. Its frames are counted in 32 bits, and beyond
  that every evaluation crashes.
-/

namespace Camlet

open Stateful

/-- An error that says that evaluation was nested too deeply, in applications or in whatever it was. -/
def RuntimeFault.isOverflow : RuntimeFault → Bool
  | .applicationDepth _ | .stackOverflow _ => true
  | _ => false

/-- A failure that is reported as such an error. -/
def Failure.isOverflow : Failure → Bool
  | .fault f => f.val.isOverflow
  | .outOfFrames => true
  | .tooLarge | .crash _ => false

/-- The outcome of a declaration that was nested too deeply is an error that says so. -/
theorem ofRun_isOverflow {d : Node} {e : Failure} {o : Outcome} (he : e.isOverflow = true)
    (h : Outcome.ofRun d (.error e) = .ok o) : ∃ f, o = .error f ∧ f.val.isOverflow = true := by
  cases e with
  | fault f =>
    cases h
    exact ⟨f, rfl, he⟩
  | outOfFrames =>
    simp only [Outcome.ofRun, Outcome.ofRun.named] at h
    split at h <;> cases h
    exact ⟨_, rfl, rfl⟩
  | tooLarge | crash => cases he

section

variable {limit larger : Int} {frames more : Nat} {env env' : Env}

/-- A declaration that is not nested too deeply under a limit comes to the same under a larger one. -/
theorem evaluated_larger_limit {d : Node} {o : Outcome} (hlimit : limit ≤ larger) (hframes : frames ≤ more)
    (ho : Outcome.ofRun d (evaluated limit frames d env).1 = .ok o)
    (hno : ∀ f, o = .error f → f.val.isOverflow = false) :
    evaluated larger more d env = evaluated limit frames d env := by
  have hsteps : ExtendsPast (fun e : Failure => e.isOverflow = true) (eval limit frames 0 d)
      (eval larger more 0 d) := by
    refine eval_outlasts_limit ?_ hlimit ?_ hframes 0 d
    · rfl
    · exact fun _ _ => rfl
  unfold evaluated at ho ⊢
  rcases hsteps env with heq | ⟨e, env₁, he, heq⟩
  · rw [heq]
  · rw [heq] at ho
    obtain ⟨f, rfl, hf⟩ := ofRun_isOverflow he ho
    cases (hno f rfl).symm.trans hf

/-- So do declarations, one after the other: each starts from the environment that it starts from under the
smaller limit. -/
theorem evaluateWithin_larger_limit {ds : List Node} {os : List Outcome} (hlimit : limit ≤ larger)
    (hframes : frames ≤ more) (h : evaluateWithin frames limit ds env = .ok (os, env'))
    (hno : ∀ f, .error f ∈ os → f.val.isOverflow = false) :
    evaluateWithin more larger ds env = .ok (os, env') := by
  induction ds generalizing env os with
  | nil => exact h
  | cons d ds ih =>
    obtain ⟨res, env₁, o, os', hres, ho, rfl, hrest⟩ := evaluateWithin_cons h
    have hsame : evaluated larger more d env = (res, env₁) := by
      rw [← hres]
      refine evaluated_larger_limit hlimit hframes (o := o) ?_ fun f hf => hno f (by simp [hf])
      rwa [hres]
    have htail := ih hrest fun f hf => hno f (List.mem_cons_of_mem _ hf)
    rw [evaluateWithin_eq, hsame]
    exact except_bind_eq_ok.mpr ⟨o, ho, except_bind_eq_ok.mpr ⟨_, htail, rfl⟩⟩

end

/-- A limit that is not less than one under which evaluation starts is one as well, as long as its frames can
be counted; if they cannot, every evaluation under it crashes. -/
theorem evaluate_of_starts {limit larger : Int} (hlimit : limit ≤ larger) (h : Starts limit) (body : List Node)
    (env : Env) :
    evaluate larger body env =
      if 1000 + 10 * larger < Int.pow 2 31 then evaluateWithin (frameBudget larger) larger body env
      else .error .limitOutOfRange := by
  have hlow : 1 ≤ 1000 + 10 * limit := by
    have hnil := h [] []
    unfold evaluate at hnil
    dsimp only at hnil
    split at hnil
    · cases hnil
    · split at hnil
      · cases hnil
      · omega
  have hpow : Int.pow 2 31 = 2147483648 := by decide
  unfold evaluate
  dsimp only
  rw [hpow]
  split
  · rw [if_neg (by omega)]
  · rw [if_neg (by omega), if_pos (by omega)]

/-- If a program can be evaluated under a limit, and no declaration of it is nested too deeply, it has the
same outcomes under any larger limit, and they leave the same environment. Only a limit that is out of range
makes every evaluation crash. -/
theorem evaluate_larger_limit (limit larger : Int) (body : List Node) (env env' : Env) (os : List Outcome)
    (hlimit : limit ≤ larger) (h : evaluate limit body env = .ok (os, env'))
    (hno : ∀ f, .error f ∈ os → f.val.isOverflow = false) :
    evaluate larger body env =
      if 1000 + 10 * larger < Int.pow 2 31 then .ok (os, env') else .error .limitOutOfRange := by
  have hstarts := evaluate_starts h
  rw [hstarts] at h
  have hframes : frameBudget limit ≤ frameBudget larger := by
    unfold frameBudget
    omega
  rw [evaluate_of_starts hlimit hstarts, evaluateWithin_larger_limit hlimit hframes h hno]

/-- A recursion of three nested applications, and an error inside one of them. -/
theorem evaluate_larger_limit_recursion :
    ∃ p os env', (parse "let rec f n = if n = 0 then 1 else n * f (n - 1);; f 2;; f \"a\";;").program = some p ∧
      evaluate 3 p.body [] = .ok (os, env') ∧
      os.map (fun o => o.result?.map Result.name) = [some "f", some "-", none] ∧
      evaluate 4000 p.body [] = .ok (os, env') := by
  have hrun : (parse "let rec f n = if n = 0 then 1 else n * f (n - 1);; f 2;; f \"a\";;").program.any
      (fun p => (evaluate 3 p.body []).toOption.any fun q =>
        q.1.map (fun o => o.result?.map Result.name) == [some "f", some "-", none] &&
          q.1.all fun o => o.fault?.all fun f => !f.val.isOverflow) = true := by decide +kernel
  obtain ⟨p, hp, hq⟩ := (Option.any_eq_true _ _).mp hrun
  obtain ⟨⟨os, env'⟩, heval, hos⟩ := (Option.any_eq_true _ _).mp hq
  obtain ⟨hnames, hall⟩ := (Bool.and_eq_true _ _).mp hos
  have heval := toOption_eq_some.mp heval
  have hno : ∀ f, .error f ∈ os → f.val.isOverflow = false := fun f hf => by
    simpa [Outcome.fault?] using List.all_eq_true.mp hall _ hf
  exact ⟨p, os, env', hp, heval, by simpa using hnames,
    evaluate_larger_limit 3 4000 p.body [] env' os (by decide) heval hno⟩

/-- The larger limit can be out of range. -/
theorem not_evaluate_larger_limit :
    ¬ ∀ (source : String) (p : Program) (limit larger : Int) (env env' : Env) (os : List Outcome),
      (parse source).program = some p → limit ≤ larger → evaluate limit p.body env = .ok (os, env') →
      (∀ f, .error f ∈ os → f.val.isOverflow = false) → evaluate larger p.body env = .ok (os, env') := by
  have hrun : (parse "1;;").program.any (fun p => (evaluate 1000 p.body []).toOption.any
      fun q => q.1.all fun o => o.fault?.isNone) = true := by decide +kernel
  obtain ⟨p, hp, hq⟩ := (Option.any_eq_true _ _).mp hrun
  obtain ⟨⟨os, env'⟩, heval, hall⟩ := (Option.any_eq_true _ _).mp hq
  intro h
  have hno : ∀ f, .error f ∈ os → f.val.isOverflow = false := fun f hf => by
    simpa [Outcome.fault?] using List.all_eq_true.mp hall _ hf
  have hlarge := h "1;;" p 1000 1000000000 [] env' os hp (by decide) (toOption_eq_some.mp heval) hno
  cases hlarge

end Camlet
