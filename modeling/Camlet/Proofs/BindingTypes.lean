import Camlet.Proofs.Limits
import Camlet.Proofs.Lookups

/-
  The types of the two forms of a binding. A function of several parameters is a chain of functions where it
  is local, with a frame for each parameter, and a declaration with one frame for all of them at the top; the
  names have the same types in both, so the body has the same type. The local form is analyzed at a smaller
  depth, so it may be refused for its nesting where the other passes.
-/

namespace Camlet

open Stateful

/-! ## Chains of functions -/

/-- Nested functions of the parameters `ps`, wherever they stand, with the body `e`. -/
inductive Curried : List String → Node → Node → Prop
  | nil (e : Node) : Curried [] e e
  | cons (pos : Pos) (p : String) {ps : List String} {v e : Node} :
    Curried ps v e → Curried (p :: ps) (.lambda pos p v) e

theorem curried_curry (pos : Pos) (ps : List String) (e : Node) : Curried ps (.curry pos ps e) e := by
  induction ps with
  | nil => exact .nil e
  | cons p ps ih => exact .cons pos p ih

theorem curried_uncurry : ∀ v : Node, Curried v.uncurry.1 v v.uncurry.2
  | .lambda pos p b => .cons pos p (curried_uncurry b)
  | .wildcard .. | .bind .. | .program .. | .letDecl .. | .funDecl .. | .exprStmt .. | .letIn .. | .cond ..
  | .matching .. | .apply .. | .binary .. | .unary .. | .intLit .. | .floatLit .. | .stringLit ..
  | .charLit .. | .ident .. => .nil _

theorem Curried.isExpression {ps : List String} {v e : Node} (h : Curried ps v e) (hv : IsExpression v) :
    IsExpression e := by
  induction h with
  | nil => exact hv
  | cons _ _ _ ih =>
    cases hv with
    | lambda _ _ hb => exact ih hb

/-- The declaration of the value `v` of a binding: of a value where it has no parameters, and else of a
function, of which `v` is the chain. -/
inductive Declares (pos : Pos) (r : Bool) (f : String) (v : Node) : Node → Prop
  | value : r = false → Declares pos r f v (.letDecl pos f v)
  | function {q : String} {qs : List String} {e : Node} :
    Curried (q :: qs) v e → Declares pos r f v (.funDecl pos f (q :: qs) e r)

/-- The parameters of a declaration are distinct, but for `_`. -/
def Node.DistinctParams : Node → Prop
  | .funDecl _ _ ps _ _ => (ps.filter (· ≠ "_")).Nodup
  | _ => True

section

variable (pos : Pos) {r : Bool} (f : String) {ps : List String} {x : Node}

theorem declares_declarationOf (hlam : r = true → ps = [] → x.isLambda = true) :
    Declares pos r f (.curry pos ps x) (Grammar.declarationOf pos ⟨r, f, ps, x⟩) := by
  cases ps with
  | cons q qs => exact .function (curried_curry pos (q :: qs) x)
  | nil =>
    cases r with
    | false => exact .value rfl
    | true =>
      have hx := hlam rfl rfl
      cases x with
      | lambda q p e => exact .function (curried_uncurry (.lambda q p e))
      | _ => cases hx

theorem distinctParams_declarationOf (hps : (ps.filter (· ≠ "_")).Nodup)
    (hchain : r = true → ps = [] → (x.uncurry.1.filter (· ≠ "_")).Nodup) :
    (Grammar.declarationOf pos ⟨r, f, ps, x⟩).DistinctParams := by
  cases ps with
  | cons q qs => exact hps
  | nil =>
    cases r with
    | false => trivial
    | true => exact hchain rfl rfl

end

/-! ## Scopes of parameters -/

/-- The type of a function of several parameters. -/
def Typing.functions (ps : List String) (t : Typing) : Typing :=
  ps.foldl (fun (t : Typing) _ => some t.function) t

theorem Typing.functions_function (ps : List String) (t : Typing) :
    Typing.functions ps (some t.function) = some (Typing.functions ps t).function := by
  induction ps generalizing t with
  | nil => rfl
  | cons p ps ih => exact ih _

/-- Scopes in which each of the parameters has a frame of its own. -/
def Scopes.chain (ps : List String) (s : Scopes) : Scopes :=
  ps.foldl (fun s p => Frame.own p (some .unknown) :: s) s

/-- The type of a name where parameters are declared around it. -/
def Scopes.below (ps : List String) (s : Scopes) (x : String) : Option Typing :=
  if x ∈ ps ∧ x ≠ "_" then some (some .unknown) else s.lookup? x

theorem Scopes.below_cons {p : String} {ps : List String} {s s' : Scopes} {x : String}
    (h : s'.lookup? x = if p = x ∧ p ≠ "_" then some (some .unknown) else s.lookup? x) :
    s'.below ps x = s.below (p :: ps) x := by
  unfold below
  rw [h]
  grind

theorem lookup?_chain (ps : List String) (s : Scopes) (x : String) :
    (s.chain ps).lookup? x = s.below ps x := by
  induction ps generalizing s with
  | nil => simp [Scopes.chain, Scopes.below]
  | cons p ps ih =>
    have hchain : s.chain (p :: ps) = Scopes.chain ps (Frame.own p (some .unknown) :: s) := rfl
    rw [hchain, ih]
    refine Scopes.below_cons ?_
    exact Scopes.lookup?_declare (declare_fresh (s := s)) x

section

variable {pos : Pos} {ps : List String} {g : Frame} {s : Scopes} {ws : List (Located Warning)}

/-- Parameters are declared in the innermost frame. -/
theorem params_lookup?_cons {u : Unit} {c' : Context} (h : Infer.params pos ps ⟨g :: s, ws⟩ = .ok u c') :
    ∃ g', c' = ⟨g' :: s, ws⟩ ∧ ∀ x, Scopes.lookup? (g' :: s) x = Scopes.below ps (g :: s) x := by
  induction ps generalizing g with
  | nil =>
    cases h
    exact ⟨g, rfl, fun x => by simp [Scopes.below]⟩
  | cons p ps ih =>
    obtain ⟨_, c₁, h₁, h₂⟩ := bind_eq_ok.mp h
    obtain ⟨s₁, hs₁, rfl⟩ := declare_eq_ok.mp h₁
    have hframe : ∃ g₁, s₁ = g₁ :: s := by
      rcases Scopes.declare_eq_ok.mp hs₁ with ⟨-, rfl⟩ | ⟨-, -, rfl⟩
      · exact ⟨g, rfl⟩
      · exact ⟨_, rfl⟩
    obtain ⟨g₁, rfl⟩ := hframe
    obtain ⟨g', rfl, hlookup⟩ := ih h₂
    exact ⟨g', rfl, fun x => (hlookup x).trans (Scopes.below_cons (Scopes.lookup?_declare hs₁ x))⟩

/-- Parameters in a frame of their own have the types that they have in a frame each. -/
theorem params_lookup? {u : Unit} {c' : Context} (h : Infer.params pos ps ⟨[] :: s, ws⟩ = .ok u c') :
    ∃ g', c' = ⟨g' :: s, ws⟩ ∧ ∀ x, Scopes.lookup? (g' :: s) x = (s.chain ps).lookup? x := by
  obtain ⟨g', rfl, hlookup⟩ := params_lookup?_cons h
  refine ⟨g', rfl, fun x => ?_⟩
  rw [hlookup, lookup?_chain]
  rfl

/-- Distinct parameters can be declared. -/
theorem params_distinct (hps : (ps.filter (· ≠ "_")).Nodup)
    (hnew : ∀ p ∈ ps, p ≠ "_" → g.has p = false) :
    ∃ c', Infer.params pos ps ⟨g :: s, ws⟩ = .ok () c' := by
  induction ps generalizing g with
  | nil => exact ⟨_, rfl⟩
  | cons p ps ih =>
    obtain ⟨hp, hnew⟩ := List.forall_mem_cons.mp hnew
    by_cases hunderscore : p = "_"
    · have hps' : (ps.filter (· ≠ "_")).Nodup := by simpa [hunderscore] using hps
      obtain ⟨c', hc'⟩ := ih hps' hnew
      have hdeclare : Check.declare pos p (some .unknown) ⟨g :: s, ws⟩ = .ok () ⟨g :: s, ws⟩ :=
        declare_eq_ok.mpr ⟨_, Scopes.declare_eq_ok.mpr (.inl ⟨hunderscore, rfl⟩), rfl⟩
      exact ⟨c', bind_eq_ok.mpr ⟨(), _, hdeclare, hc'⟩⟩
    · simp only [List.filter_cons, hunderscore, ne_eq, not_false_eq_true, decide_true, if_true,
        List.nodup_cons] at hps
      obtain ⟨hfirst, hps'⟩ := hps
      have hnew' : ∀ q ∈ ps, q ≠ "_" → Bindings.has (g.set p (some .unknown)) q = false := by
        intro q hq hne
        have hpq : p ≠ q := by
          rintro rfl
          exact hfirst (List.mem_filter.mpr ⟨hq, by simpa using hne⟩)
        rw [Bindings.has, Bindings.get?_set, if_neg hpq]
        exact hnew q hq hne
      obtain ⟨c', hc'⟩ := ih hps' hnew'
      have hdeclare : Check.declare pos p (some .unknown) ⟨g :: s, ws⟩ =
          .ok () ⟨g.set p (some .unknown) :: s, ws⟩ :=
        declare_eq_ok.mpr ⟨_, Scopes.declare_eq_ok.mpr (.inr ⟨hunderscore, hp hunderscore, rfl⟩), rfl⟩
      exact ⟨c', bind_eq_ok.mpr ⟨(), _, hdeclare, hc'⟩⟩

end

/-! ## The type of what is bound -/

section

variable {depth : Nat} {s s' : Scopes} {ws ws' : List (Located Warning)} {e v : Node} {t : Typing}

/-- An expression passes the analysis where the names have the same types. -/
theorem infer_congr (he : IsExpression e) (h : ∀ x, s.lookup? x = s'.lookup? x)
    (hok : infer depth e ⟨s, ws⟩ = .ok t ⟨s, ws'⟩) : infer depth e ⟨s', ws⟩ = .ok t ⟨s', ws'⟩ := by
  have hend := infer_steady depth he s s' (fun x _ => h x) ⟨s, ws⟩ ⟨s', ws⟩ ⟨rfl, rfl, rfl⟩
  rw [hok] at hend
  generalize infer depth e ⟨s', ws⟩ = q at hend ⊢
  cases hend with
  | @ok _ t' _ c' ht hc =>
    obtain ⟨s₁, ws₁⟩ := c'
    obtain ⟨-, hs₁, hws₁⟩ := hc
    dsimp only at hs₁ hws₁
    rw [ht, hs₁, hws₁]

theorem infer_scopes (he : IsExpression e) {c c' : Context} (h : infer depth e c = .ok t c') :
    ∃ ws, c' = ⟨c.scopes, ws⟩ := by
  obtain ⟨-, hs⟩ := infer_sound depth he c t c' h
  exact ⟨c'.warnings, by rw [← hs]⟩

/-- A chain of functions passes the analysis if its body does, with the parameters in frames of their own. -/
theorem infer_curried {ps : List String} (h : Curried ps v e) (hv : IsExpression v) :
    infer (depth + ps.length) v ⟨s, ws⟩ = .ok t ⟨s, ws'⟩ ↔
      ∃ te, infer depth e ⟨s.chain ps, ws⟩ = .ok te ⟨s.chain ps, ws'⟩ ∧ t = Typing.functions ps te := by
  induction h generalizing s t with
  | nil e => simp [Scopes.chain, Typing.functions]
  | @cons pos p ps v e _ ih =>
    cases hv with
    | lambda _ _ hv =>
      have hlambda : infer (depth + (p :: ps).length) (.lambda pos p v) =
          Infer.lambda (infer (depth + ps.length)) pos p v := rfl
      have hchain : s.chain (p :: ps) = Scopes.chain ps (Frame.own p (some .unknown) :: s) := rfl
      have hfunctions : ∀ te, Typing.functions (p :: ps) te = some (Typing.functions ps te).function :=
        fun te => Typing.functions_function ps te
      rw [hlambda, hchain, lambda_eq_ok]
      simp only [hfunctions]
      constructor
      · rintro ⟨tb, c₁, hb, rfl, heq⟩
        obtain ⟨ws₁, rfl⟩ := infer_scopes hv hb
        cases heq
        obtain ⟨te, hte, rfl⟩ := (ih hv).mp hb
        exact ⟨te, hte, rfl⟩
      · rintro ⟨te, hte, rfl⟩
        exact ⟨_, _, (ih hv).mpr ⟨te, hte, rfl⟩, rfl, rfl⟩

/-- A function of too many parameters is nested too deeply, whatever it is a function to. -/
theorem infer_curry_tooDeep {pos : Pos} {ps : List String} (hps : depth ≤ ps.length) (e : Node) (c : Context) :
    ∃ c', infer depth (.curry pos ps e) c = .error .tooDeep c' := by
  induction ps generalizing depth c with
  | nil =>
    obtain rfl := Nat.le_zero.mp hps
    exact ⟨c, rfl⟩
  | cons p ps ih =>
    cases depth with
    | zero => exact ⟨c, rfl⟩
    | succ depth =>
      have hdeclare : Check.declare pos p (some .unknown) ⟨[] :: c.scopes, c.warnings⟩ =
          .ok () ⟨Frame.own p (some .unknown) :: c.scopes, c.warnings⟩ := declare_fresh_eq_ok.mpr rfl
      obtain ⟨c', hc'⟩ := ih (Nat.le_of_succ_le_succ hps) ⟨Frame.own p (some .unknown) :: c.scopes, c.warnings⟩
      have hlambda : infer (depth + 1) (.curry pos (p :: ps) e) c =
          Check.within [] (Check.declare pos p (some .unknown) >>= fun _ =>
            infer depth (.curry pos ps e) >>= fun t => pure (some t.function)) c := rfl
      rw [hlambda, Check.within, bind_ok hdeclare, bind_run, hc']
      exact ⟨_, rfl⟩

end

/-- The frame in which what is bound is analyzed: the name is there already if the binding is recursive. -/
def Frame.recursive (r : Bool) (f : String) : Frame := if r then [(f, some .anyFunction)] else []

section

variable {depth : Nat} {pos : Pos} {r : Bool} {f : String} {v d : Node} {t : Typing}
  {ws : List (Located Warning)} (hf : f ≠ "_") (hv : IsExpression v) (hd : Declares pos r f v d)

include hf in
theorem declare_first (pos : Pos) (t : Typing) (ws : List (Located Warning)) :
    Check.declare pos f t ⟨[[]], ws⟩ = .ok () ⟨[[(f, t)]], ws⟩ :=
  declare_fresh_eq_ok.mpr (by rw [Frame.own, if_neg hf])

include hf

/-- A declaration of a function passes the analysis if its body does where each parameter has a frame. -/
theorem infer_function (pos : Pos) {ps : List String} {e : Node} {te : Typing} (he : IsExpression e)
    (hdistinct : (ps.filter (· ≠ "_")).Nodup)
    (hte : infer (depth + 1) e ⟨Scopes.chain ps (Frame.recursive r f :: [[]]), []⟩ =
      .ok te ⟨Scopes.chain ps (Frame.recursive r f :: [[]]), ws⟩) :
    infer (depth + 2) (.funDecl pos f ps e r) ⟨[[]], []⟩ =
      .ok (Typing.functions ps te) ⟨[[(f, Typing.functions ps te)]], ws⟩ := by
  have hnone : ∀ p ∈ ps, p ≠ "_" → Bindings.has ([] : Frame) p = false := fun _ _ _ => rfl
  obtain ⟨c₁, hps⟩ : ∃ c₁, Infer.params pos ps ⟨[] :: Frame.recursive r f :: [[]], []⟩ = .ok () c₁ :=
    params_distinct hdistinct hnone
  obtain ⟨g, rfl, hlookup⟩ := params_lookup? hps
  have hbody := infer_congr he (fun x => (hlookup x).symm) hte
  exact funDecl_eq_ok.mpr ⟨te, _, _, hps, hbody, rfl, declare_first hf pos _ ws⟩

include hv hd

/-- What passes the analysis as the value of a local binding passes it as a declaration, two levels higher. -/
theorem infer_of_value (hdistinct : d.DistinctParams)
    (h : infer depth v ⟨Frame.recursive r f :: [[]], []⟩ = .ok t ⟨Frame.recursive r f :: [[]], ws⟩) :
    infer (depth + 2) d ⟨[[]], []⟩ = .ok t ⟨[[(f, t)]], ws⟩ := by
  cases hd with
  | value hr =>
    subst hr
    have hmore : infer (depth + 1) v ⟨[[], []], []⟩ = .ok t ⟨[[], []], ws⟩ :=
      (infer_deepens (Nat.le_succ depth) v).ok h
    have hsame : ∀ x, Scopes.lookup? [[], []] x = Scopes.lookup? [[]] x := fun _ => rfl
    exact bind_eq_ok.mpr ⟨t, _, infer_congr hv hsame hmore, bind_eq_ok.mpr ⟨(), _, declare_first hf pos t ws, rfl⟩⟩
  | @function q qs e hchain =>
    have hle : depth ≤ depth + 1 + (q :: qs).length := by omega
    obtain ⟨te, hte, rfl⟩ := (infer_curried hchain hv).mp ((infer_deepens hle v).ok h)
    exact infer_function hf pos (hchain.isExpression hv) hdistinct hte

/-- What passes the analysis as a declaration passes it as the value of a local binding, two levels lower,
unless it is nested too deeply for that. -/
theorem infer_value {c' : Context} (h : infer (depth + 2) d ⟨[[]], []⟩ = .ok t c') :
    ∃ ws, c' = ⟨[[(f, t)]], ws⟩ ∧
      (infer depth v ⟨Frame.recursive r f :: [[]], []⟩ = .ok t ⟨Frame.recursive r f :: [[]], ws⟩ ∨
        ∃ c, infer depth v ⟨Frame.recursive r f :: [[]], []⟩ = .error .tooDeep c) := by
  cases hd with
  | value hr =>
    subst hr
    obtain ⟨tv, c₁, hx, hrest⟩ := bind_eq_ok.mp h
    obtain ⟨_, c₂, hdeclare, heq⟩ := bind_eq_ok.mp hrest
    cases heq
    obtain ⟨ws, rfl⟩ := infer_scopes hv hx
    rw [declare_first hf] at hdeclare
    cases hdeclare
    have hsame : ∀ x, Scopes.lookup? [[]] x = Scopes.lookup? [[], []] x := fun _ => rfl
    exact ⟨ws, rfl, (infer_deepens (Nat.le_succ depth) v).ok_or (infer_congr hv hsame hx)⟩
  | @function q qs e hchain =>
    have he := hchain.isExpression hv
    obtain ⟨te, c₁, c₂, hps, hbody, rfl, hdeclare⟩ := funDecl_eq_ok.mp h
    obtain ⟨g, rfl, hlookup⟩ := params_lookup? hps
    obtain ⟨ws, rfl⟩ := infer_scopes he hbody
    have hdeclared : Check.declare pos f (Typing.functions (q :: qs) te) ⟨[[]], ws⟩ = .ok () c' := hdeclare
    rw [declare_first hf] at hdeclared
    cases hdeclared
    have hchained := infer_congr he hlookup hbody
    have hlocal : infer (depth + 1 + (q :: qs).length) v ⟨Frame.recursive r f :: [[]], []⟩ =
        .ok (Typing.functions (q :: qs) te) ⟨Frame.recursive r f :: [[]], ws⟩ :=
      (infer_curried hchain hv).mpr ⟨te, hchained, rfl⟩
    have hle : depth ≤ depth + 1 + (q :: qs).length := by omega
    exact ⟨ws, rfl, (infer_deepens hle v).ok_or hlocal⟩

end

/-! ## The type of the body -/

section

variable {sub : Node → Check Typing} {pos : Pos} {f : String} {v b : Node}

/-- The first local binding of a text: the name has the type of its value in the body. -/
theorem letIn_first (hf : f ≠ "_") (r : Bool)
    (hv : ∀ c t c', sub v c = .ok t c' → c'.scopes = c.scopes) :
    Infer.letIn sub pos f v b r ⟨[[]], []⟩ =
      Check.within (Frame.recursive r f) (do Check.assign f (← sub v); sub b) ⟨[[]], []⟩ := by
  have hown : ∀ (t : Typing) (s : Scopes) (ws : List (Located Warning)),
      Check.declare pos f t ⟨[] :: s, ws⟩ = .ok () ⟨[(f, t)] :: s, ws⟩ := fun t s ws =>
    declare_fresh_eq_ok.mpr (by rw [Frame.own, if_neg hf])
  cases r with
  | true =>
    have hsteps : (Check.declare pos f (some .anyFunction) >>= fun _ => do Check.assign f (← sub v); sub b)
        ⟨[[], []], []⟩ = (do Check.assign f (← sub v); sub b) ⟨[[(f, some .anyFunction)], []], []⟩ :=
      bind_ok (hown _ _ _) _
    simp only [Infer.letIn, if_true, Check.within, hsteps, Frame.recursive]
  | false =>
    have hsteps : (sub v >>= fun t => Check.declare pos f t >>= fun _ => sub b) ⟨[[], []], []⟩ =
        (sub v >>= fun t => Check.assign f t >>= fun _ => sub b) ⟨[[], []], []⟩ := by
      refine bind_congr_ok fun t c hok => ?_
      obtain ⟨s, ws⟩ := c
      obtain rfl : s = [[], []] := hv _ _ _ hok
      exact bind_ok (hown t [[]] ws) _
    simp only [Infer.letIn, Bool.false_eq_true, if_false, Check.within, hsteps, Frame.recursive]

/-- Scopes of the body in the two forms can stand for each other. -/
theorem replaces_first (r : Bool) (f : String) (t : Typing) :
    Scopes.Replaces [[(f, t)]] (((f, t) :: Frame.recursive r f) :: [[]]) ∧
      Scopes.Replaces (((f, t) :: Frame.recursive r f) :: [[]]) [[(f, t)]] := by
  have hget : ∀ x, Bindings.get? ((f, t) :: Frame.recursive r f) x = Bindings.get? [(f, t)] x := by
    intro x
    simp only [Bindings.get?]
    split
    · rfl
    next hx => cases r <;> simp [Frame.recursive, Bindings.get?, hx]
  have hlookup : ∀ x, Scopes.lookup? (((f, t) :: Frame.recursive r f) :: [[]]) x =
      Scopes.lookup? [[(f, t)]] x := by
    intro x
    rw [Scopes.lookup?, Scopes.lookup?, hget]
    rfl
  constructor
  · exact ⟨fun x t' hx => hlookup x ▸ hx, fun x hx => by simpa [Bindings.has, hget] using hx⟩
  · exact ⟨fun x t' hx => (hlookup x).trans hx, fun x hx => by simpa [Bindings.has, hget] using hx⟩

end

section

variable {depth : Nat} {p q : Pos} {r : Bool} {f : String} {v d b b' : Node} {t tv : Typing} {c c' : Context}

/-- An expression that passes in some scopes passes elsewhere in scopes that can stand for those. -/
theorem infer_elsewhere {s s' : Scopes} {ws : List (Located Warning)} (hb : IsExpression b)
    (hmoved : ∃ g, b' = b.moved g) (h : s'.Replaces s) (hok : infer depth b ⟨s, ws⟩ = .ok t c) :
    ∃ c', infer depth b' ⟨s', ws⟩ = .ok t c' := by
  obtain ⟨g, rfl⟩ := hmoved
  obtain ⟨t', c', hok', rfl, -⟩ := infer_placeFree depth hb g s s' h _ ⟨s', ws⟩ ⟨rfl, rfl⟩ t c hok
  exact ⟨c', hok'⟩

variable (hf : f ≠ "_") (hv : IsExpression v) (hd : Declares p r f v d)

include hf hv in
theorem infer_local :
    infer (depth + 2) (.exprStmt p (.letIn p f v b r)) ⟨[[]], []⟩ =
      Check.within (Frame.recursive r f) (do Check.assign f (← infer depth v); infer depth b) ⟨[[]], []⟩ :=
  letIn_first hf r fun _ _ _ h => (infer_sound depth hv _ _ _ h).2

include hf hv hd

/-- What passes the analysis in the local form passes it in the form at the top, with the same type. -/
theorem infer_top_of_local (hb : IsExpression b) (hdistinct : d.DistinctParams) (hthere : ∃ g, b' = b.moved g)
    (h : infer (depth + 2) (.exprStmt p (.letIn p f v b r)) ⟨[[]], []⟩ = .ok t c') :
    ∃ tv c₁ c₂, infer (depth + 2) d ⟨[[]], []⟩ = .ok tv c₁ ∧ infer (depth + 2) (.exprStmt q b') c₁ = .ok t c₂ := by
  rw [infer_local hf hv] at h
  obtain ⟨c₁, hin, -⟩ := within_eq_ok.mp h
  obtain ⟨tv, c₂, hvalue, hrest⟩ := bind_eq_ok.mp hin
  obtain ⟨ws, rfl⟩ := infer_scopes hv hvalue
  obtain ⟨_, c₃, hassign, hbody⟩ := bind_eq_ok.mp hrest
  cases hassign
  obtain ⟨c₄, htop⟩ := infer_elsewhere hb hthere (replaces_first r f tv).1 hbody
  exact ⟨tv, _, c₄, infer_of_value hf hv hd hdistinct hvalue, (infer_deepens (Nat.le_succ depth) b').ok htop⟩

/-- What passes the analysis at the top passes it in the local form, with the same type, unless it is nested too
deeply for that. -/
theorem infer_local_of_top (hb' : IsExpression b') (hback : ∃ g, b = b'.moved g)
    (hdecl : infer (depth + 2) d ⟨[[]], []⟩ = .ok tv c) (hbody : infer (depth + 2) (.exprStmt q b') c = .ok t c') :
    (∃ c₂, infer (depth + 2) (.exprStmt p (.letIn p f v b r)) ⟨[[]], []⟩ = .ok t c₂) ∨
      ∃ c₂, infer (depth + 2) (.exprStmt p (.letIn p f v b r)) ⟨[[]], []⟩ = .error .tooDeep c₂ := by
  rw [infer_local hf hv]
  obtain ⟨ws, rfl, hvalue | ⟨c₁, hdeep⟩⟩ := infer_value hf hv hd hdecl
  · have hbody' : infer (depth + 1) b' ⟨[[(f, tv)]], ws⟩ = .ok t c' := hbody
    obtain ⟨c₂, hlocal⟩ := infer_elsewhere hb' hback (replaces_first r f tv).2 hbody'
    have hsteps : ∀ x : Check Typing, (infer depth v >>= fun t => Check.assign f t >>= fun _ => x)
        ⟨Frame.recursive r f :: [[]], []⟩ = x ⟨((f, tv) :: Frame.recursive r f) :: [[]], ws⟩ :=
      fun x => bind_ok hvalue _
    unfold Check.within
    dsimp only
    rw [hsteps]
    rcases (infer_deepens (Nat.le_succ depth) b).ok_or hlocal with hok | ⟨c₃, hdeep⟩
    · rw [hok]
      exact .inl ⟨_, rfl⟩
    · rw [hdeep]
      exact .inr ⟨_, rfl⟩
  · right
    unfold Check.within
    dsimp only
    rw [bind_run, hdeep]
    exact ⟨_, rfl⟩

end

end Camlet
