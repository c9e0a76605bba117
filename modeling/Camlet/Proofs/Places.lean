import Camlet.Proofs.Separation

/-
  Places do not matter to reading. The same text is cut into the same tokens wherever it stands, but for
  their places; and tokens that stand elsewhere derive the same trees, but for their places. Moving tokens
  and trees is one function of places throughout, so each statement says that a step of reading commutes
  with it.
-/

namespace Camlet

/-! ## Moved tokens and trees -/

/-- A token at another place. -/
def Token.moved (f : Pos → Pos) (t : Token) : Token := { t with pos := f t.pos }

@[simp] theorem Token.lexeme_moved (f : Pos → Pos) (t : Token) : (t.moved f).lexeme = t.lexeme := rfl

namespace Node

mutual

/-- A tree whose nodes stand at other places. -/
def moved (f : Pos → Pos) : Node → Node
  | wildcard p => wildcard (f p)
  | bind p x => bind (f p) x
  | program p ds => program (f p) (movedList f ds)
  | letDecl p x v => letDecl (f p) x (v.moved f)
  | funDecl p x ps b r => funDecl (f p) x ps (b.moved f) r
  | exprStmt p e => exprStmt (f p) (e.moved f)
  | letIn p x v b r => letIn (f p) x (v.moved f) (b.moved f) r
  | cond p c t e => cond (f p) (c.moved f) (t.moved f) (e.moved f)
  | matching p s cs => matching (f p) (s.moved f) (movedCases f cs)
  | lambda p x b => lambda (f p) x (b.moved f)
  | apply p g a => apply (f p) (g.moved f) (a.moved f)
  | binary p o l r => binary (f p) o (l.moved f) (r.moved f)
  | unary p o e => unary (f p) o (e.moved f)
  | intLit p n => intLit (f p) n
  | floatLit p x => floatLit (f p) x
  | stringLit p s => stringLit (f p) s
  | charLit p s => charLit (f p) s
  | ident p x => ident (f p) x

/-- Trees at other places. -/
def movedList (f : Pos → Pos) : List Node → List Node
  | [] => []
  | n :: ns => n.moved f :: movedList f ns

/-- Cases at other places. -/
def movedCases (f : Pos → Pos) : List (Node × Node) → List (Node × Node)
  | [] => []
  | (p, e) :: cs => (p.moved f, e.moved f) :: movedCases f cs

end

variable (f : Pos → Pos)

@[simp] theorem pos_moved (e : Node) : (e.moved f).pos = f e.pos := by
  cases e <;> rfl

@[simp] theorem name?_moved (e : Node) : (e.moved f).name? = e.name? := by
  cases e <;> rfl

@[simp] theorem curry_moved (p : Pos) (ps : List String) (e : Node) :
    (curry p ps e).moved f = curry (f p) ps (e.moved f) := by
  induction ps with
  | nil => rfl
  | cons x ps ih => exact congrArg (lambda (f p) x) ih

theorem uncurry_moved : ∀ e : Node, (e.moved f).uncurry = (e.uncurry.1, e.uncurry.2.moved f)
  | lambda _ x b => by
    simp only [moved, uncurry, uncurry_moved b]
  | wildcard .. | bind .. | program .. | letDecl .. | funDecl .. | exprStmt .. | letIn .. | cond ..
  | matching .. | apply .. | binary .. | unary .. | intLit .. | floatLit .. | stringLit .. | charLit ..
  | ident .. => rfl

mutual

/-- A tree that is not moved stays what it is. -/
theorem moved_id : ∀ e : Node, e.moved id = e
  | wildcard _ | bind .. | intLit .. | floatLit .. | stringLit .. | charLit .. | ident .. => rfl
  | program _ ds => by simp only [moved, movedList_id ds, id]
  | letDecl _ _ v => by simp only [moved, moved_id v, id]
  | funDecl _ _ _ b _ => by simp only [moved, moved_id b, id]
  | exprStmt _ e => by simp only [moved, moved_id e, id]
  | letIn _ _ v b _ => by simp only [moved, moved_id v, moved_id b, id]
  | cond _ c t e => by simp only [moved, moved_id c, moved_id t, moved_id e, id]
  | matching _ s cs => by simp only [moved, moved_id s, movedCases_id cs, id]
  | lambda _ _ b => by simp only [moved, moved_id b, id]
  | apply _ g a => by simp only [moved, moved_id g, moved_id a, id]
  | binary _ _ l r => by simp only [moved, moved_id l, moved_id r, id]
  | unary _ _ e => by simp only [moved, moved_id e, id]

theorem movedList_id : ∀ ds : List Node, movedList id ds = ds
  | [] => rfl
  | d :: ds => by simp only [movedList, moved_id d, movedList_id ds]

theorem movedCases_id : ∀ cs : List (Node × Node), movedCases id cs = cs
  | [] => rfl
  | (p, e) :: cs => by simp only [movedCases, moved_id p, moved_id e, movedCases_id cs]

end

end Node

/-- A binding at another place. -/
def Binding.moved (f : Pos → Pos) (b : Binding) : Binding := { b with value := b.value.moved f }

/-! ## Moved texts -/

theorem Pos.line_le_step (p : Pos) (c : Char) : p.line ≤ (p.step c).line := by
  unfold Pos.step
  split
  · exact Int.le_add_one (Int.le_refl _)
  · exact Int.le_refl _

theorem Pos.line_le_after (p : Pos) (cs : List Char) : p.line ≤ (p.after cs).line := by
  induction cs generalizing p with
  | nil => exact Int.le_refl _
  | cons c cs ih => exact Int.le_trans (p.line_le_step c) (ih _)

/-- Moving goes along with the text from `pos` on, as it does if it respects the ends of lines. -/
def Pos.Carries (f : Pos → Pos) (pos : Pos) : Prop :=
  ∀ p c, pos.line ≤ p.line → f (p.step c) = (f p).step c

theorem Pos.Carries.after {f : Pos → Pos} {pos : Pos} (h : Pos.Carries f pos) (cs : List Char) :
    Pos.Carries f (pos.after cs) ∧ f (pos.after cs) = (f pos).after cs := by
  refine ⟨fun p c hp => h p c (Int.le_trans (pos.line_le_after cs) hp), ?_⟩
  induction cs generalizing pos with
  | nil => rfl
  | cons c cs ih =>
    have hstep : Pos.Carries f (pos.step c) := fun p d hp => h p d (Int.le_trans (pos.line_le_step c) hp)
    rw [Pos.after_cons, Pos.after_cons, ih hstep, h pos c (Int.le_refl _)]

/-- A text that stands elsewhere is cut into the same tokens, elsewhere. -/
theorem body_moved {f : Pos → Pos} {pos : Pos} (h : Pos.Carries f pos) (cs : List Char) :
    Lexer.body (f pos) cs = (Lexer.body pos cs).map (Token.moved f) := by
  induction cs using Lexer.text_induction generalizing pos with
  | nil => rfl
  | blank c cs hc ih =>
    obtain ⟨hstep, heq⟩ : Pos.Carries f (pos.step c) ∧ f (pos.step c) = (f pos).step c := h.after [c]
    rw [Lexer.body_blank hc, Lexer.body_blank hc, ← heq, ih hstep]
  | scan c cs hc ih =>
    obtain ⟨hspan, heq⟩ := h.after (Lexer.scan c cs).span
    rw [Lexer.body_scan hc, Lexer.body_scan hc, ← heq, ih hspan]
    rfl

/-- The place that stands to `q` as another stands to `p`, which is on no later line than that. -/
def Pos.shift (p q r : Pos) : Pos :=
  if r.line = p.line then ⟨q.line, q.column + (r.column - p.column)⟩ else ⟨q.line + (r.line - p.line), r.column⟩

theorem Pos.shift_self (p q : Pos) : p.shift q p = q := by
  simp [shift]

theorem Pos.carries_shift (p q : Pos) : Pos.Carries (p.shift q) p := by
  intro r c hr
  unfold Pos.shift Pos.step
  by_cases hc : c = '\n'
  · have hne : r.line + 1 ≠ p.line := by omega
    simp only [hc, if_true, hne, if_false]
    split
    · simp only [Pos.mk.injEq, and_true]
      omega
    · simp only [Pos.mk.injEq, and_true]
      omega
  · simp only [hc, if_false]
    split
    · simp only [Pos.mk.injEq, true_and]
      omega
    · rfl

/-- A text has the same tokens at two places, but for the distance. -/
theorem body_shift (p q : Pos) (cs : List Char) :
    Lexer.body q cs = (Lexer.body p cs).map (Token.moved (p.shift q)) := by
  rw [← body_moved (p.carries_shift q), Pos.shift_self]

/-! ## Moved phrases -/

/-- The phrases of every rule are phrases of it elsewhere. -/
def Movable (f : Pos → Pos) (L : Nonterminal → Language Node) : Prop :=
  ∀ nt loose ts e, L nt loose ts e → L nt loose (ts.map (Token.moved f)) (e.moved f)

namespace Phrase

variable {f : Pos → Pos}

theorem Pattern.moved {t : Token} {p : Node} (h : Pattern t p) : Pattern (t.moved f) (p.moved f) := by
  cases h with
  | wildcard hk hx => exact .wildcard (t := t.moved f) hk hx
  | bind hk hx => exact .bind (t := t.moved f) hk hx

theorem lexemes_moved (ps : List Token) : (ps.map (Token.moved f)).map (·.lexeme) = ps.map (·.lexeme) := by
  rw [List.map_map]
  rfl

theorem Params.moved {ps : List Token} (h : Params ps) : Params (ps.map (Token.moved f)) := by
  refine ⟨fun p hp => ?_, ?_⟩
  · obtain ⟨q, hq, rfl⟩ := List.mem_map.mp hp
    exact h.names q hq
  · rw [lexemes_moved]
    exact h.distinct

theorem Curried.moved {p : Pos} {body e : Node} {ps : List String} (h : Curried p body ps e) :
    Curried (f p) (body.moved f) ps (e.moved f) := by
  induction h with
  | body => exact .body
  | param _ ih => exact .param ih

theorem Uncurried.moved {v e : Node} {ps : List String} (h : Uncurried v ps e) :
    Uncurried (v.moved f) ps (e.moved f) := by
  induction h with
  | @body e h =>
    refine .body ?_
    cases e with
    | lambda p x b => exact absurd rfl (h p x b)
    | _ => nofun
  | param _ ih => exact .param ih

theorem Declares.moved {p : Pos} {b : Camlet.Binding} {d : Node} (h : Declares p b d) :
    Declares (f p) (b.moved f) (d.moved f) := by
  cases h with
  | function => exact .function
  | value => exact .value
  | recursive h => exact .recursive h.moved

variable {L : Nonterminal → Language Node} (h : Movable f L)

include h

theorem Binding.moved {loose : Bool} {ts : List Token} {b : Camlet.Binding} (hb : Binding L loose ts b) :
    Binding L loose (ts.map (Token.moved f)) (b.moved f) := by
  cases hb with
  | @plain _ name eq ps vs v hn hps heq hv =>
    have hmoved := @Binding.plain L loose (name.moved f) (eq.moved f) _ _ _ hn (hps.moved (f := f)) heq
      (h .bound _ _ _ hv)
    rw [lexemes_moved] at hmoved
    simpa [Camlet.Binding.moved] using hmoved
  | @recursive _ r name eq ps vs v hr hn hps heq hv hlam =>
    have hlam' : ps.map (Token.moved f) = [] → ∃ p x b, v.moved f = .lambda p x b := by
      intro hnil
      obtain ⟨p, x, b, rfl⟩ := hlam (List.map_eq_nil_iff.mp hnil)
      exact ⟨f p, x, b.moved f, rfl⟩
    have hmoved := @Binding.recursive L loose (r.moved f) (name.moved f) (eq.moved f) _ _ _ hr hn
      (hps.moved (f := f)) heq (h .bound _ _ _ hv) hlam'
    rw [lexemes_moved] at hmoved
    simpa [Camlet.Binding.moved] using hmoved

theorem LetIn.moved {p : Pos} {loose : Bool} {ts : List Token} {e : Node} (he : LetIn L p loose ts e) :
    LetIn L (f p) loose (ts.map (Token.moved f)) (e.moved f) := by
  cases he with
  | @mk _ _ i bs es b v e hb hi he hv =>
    have hmoved : LetIn L (f p) loose _ _ :=
      .mk (i := i.moved f) (hb.moved h) hi (h .expression _ _ _ he) hv.moved
    simpa [Node.moved, Camlet.Binding.moved] using hmoved

theorem Cond.moved {p : Pos} {loose : Bool} {ts : List Token} {e : Node} (he : Cond L p loose ts e) :
    Cond L (f p) loose (ts.map (Token.moved f)) (e.moved f) := by
  cases he with
  | @mk _ _ _ t e _ _ _ _ _ _ hc ht ha he hb =>
    have hmoved : Cond L (f p) loose _ _ := .mk (t := t.moved f) (e := e.moved f) (h .expression _ _ _ hc) ht
      (h .expression _ _ _ ha) he (h .expression _ _ _ hb)
    simpa [Node.moved] using hmoved

theorem Lambda.moved {p : Pos} {loose : Bool} {ts : List Token} {e : Node} (he : Lambda L p loose ts e) :
    Lambda L (f p) loose (ts.map (Token.moved f)) (e.moved f) := by
  cases he with
  | @mk _ arrow ps es e _ hne hps ha he hcurried =>
    have hcurried' : Curried (f p) (e.moved f) ((ps.map (Token.moved f)).map (·.lexeme)) _ :=
      lexemes_moved ps ▸ hcurried.moved
    rw [List.map_append]
    exact @Lambda.mk L (f p) loose (arrow.moved f) _ _ _ _ (fun hnil => hne (List.map_eq_nil_iff.mp hnil)) hps.moved
      ha (h .expression _ _ _ he) hcurried'

theorem Case.moved {loose : Bool} {ts : List Token} {c : Node × Node} (hc : Case L loose ts c) :
    Case L loose (ts.map (Token.moved f)) (c.1.moved f, c.2.moved f) := by
  cases hc with
  | @mk _ bar _ arrow _ _ _ hb hp ha he =>
    exact @Case.mk L loose (bar.moved f) _ (arrow.moved f) _ _ _ hb hp.moved ha (h .expression _ _ _ he)

theorem Cases.moved {ts : List Token} {cs : List (Node × Node)} (hcs : Cases L ts cs) :
    Cases L (ts.map (Token.moved f)) (Node.movedCases f cs) := by
  induction hcs with
  | last hc => exact .last (hc.moved h)
  | more hc _ ih =>
    rw [List.map_append]
    exact .more (hc.moved h) ih

theorem Matching.moved {p : Pos} {loose : Bool} {ts : List Token} {e : Node} (he : Matching L p loose ts e) :
    Matching L (f p) loose (ts.map (Token.moved f)) (e.moved f) := by
  cases he with
  | @mk _ w _ _ _ _ hs hw hcs =>
    have hmoved : Matching L (f p) true _ _ := .mk (w := w.moved f) (h .expression _ _ _ hs) hw (hcs.moved h)
    simpa [Node.moved] using hmoved

theorem Expression.moved {loose : Bool} {ts : List Token} {e : Node} (he : Expression L loose ts e) :
    Expression L loose (ts.map (Token.moved f)) (e.moved f) := by
  cases he with
  | @letIn _ t _ _ ht he => exact .letIn (t := t.moved f) ht (he.moved h)
  | @cond _ t _ _ ht he => exact .cond (t := t.moved f) ht (he.moved h)
  | @lambda _ t _ _ ht he => exact .lambda (t := t.moved f) ht (he.moved h)
  | @matching _ t _ _ ht he => exact .matching (t := t.moved f) ht (he.moved h)
  | level he => exact .level (h _ _ _ _ he)

omit h in
theorem Level.moved {operators : List String} {operand : Language Node}
    (h : ∀ loose ts e, operand loose ts e → operand loose (ts.map (Token.moved f)) (e.moved f))
    {loose : Bool} {ts : List Token} {e : Node} (he : Level operators operand loose ts e) :
    Level operators operand loose (ts.map (Token.moved f)) (e.moved f) := by
  induction he with
  | operand he => exact .operand (h _ _ _ he)
  | @binary t _ _ _ l r _ ht hr ih =>
    have hmoved := Level.binary (t := t.moved f) ih ⟨ht.kind, ht.mem, ht.name_eq⟩ (h _ _ _ hr)
    simpa [Node.moved] using hmoved

theorem Unary.moved {loose : Bool} {ts : List Token} {e : Node} (he : Unary L loose ts e) :
    Unary L loose (ts.map (Token.moved f)) (e.moved f) := by
  cases he with
  | @sign t _ _ ht he => exact .sign (t := t.moved f) ht (h .unary _ _ _ he)
  | application he => exact .application (h .application _ _ _ he)

omit h in
theorem Application.moved {primary : Language Node}
    (h : ∀ loose ts e, primary loose ts e → primary loose (ts.map (Token.moved f)) (e.moved f))
    {loose : Bool} {ts : List Token} {e : Node} (he : Application primary loose ts e) :
    Application primary loose (ts.map (Token.moved f)) (e.moved f) := by
  induction he with
  | callee he => exact .callee (h _ _ _ he)
  | @argument _ _ g a _ ha ih =>
    have hmoved := Application.argument ih (h _ _ _ ha)
    simpa [Node.moved] using hmoved

theorem Primary.moved {loose : Bool} {ts : List Token} {e : Node} (he : Primary L loose ts e) :
    Primary L loose (ts.map (Token.moved f)) (e.moved f) := by
  cases he with
  | @int t n hk hn => exact .int (t := t.moved f) hk hn
  | @float t x hk hx => exact .float (t := t.moved f) hk hx
  | @string t hk => exact .string (t := t.moved f) hk
  | @char t hk => exact .char (t := t.moved f) hk
  | @ident t hk => exact .ident (t := t.moved f) hk
  | @backtick t hk => exact .backtick (t := t.moved f) hk
  | @bracketed _ o c _ _ ho he hc =>
    have hmoved := Primary.bracketed (o := o.moved f) (c := c.moved f) ho (h .expression _ _ _ he) hc
    simpa using hmoved

end Phrase

/-- The phrases of every rule of the grammar are phrases of it elsewhere. -/
theorem movable_derives (f : Pos → Pos) (n : Nat) : Movable f (Derives n) := by
  induction n with
  | zero => exact fun _ _ _ _ h => h.elim
  | succ n ih =>
    intro nt loose ts e h
    match nt with
    | .expression => exact Phrase.Expression.moved ih h
    | .bound => exact ih .expression _ _ _ h
    | .level [] => exact ih .unary _ _ _ h
    | .level (_ :: tighter) => exact Phrase.Level.moved (ih (.level tighter)) h
    | .unary => exact Phrase.Unary.moved ih h
    | .application => exact Phrase.Application.moved (ih .primary) h
    | .primary => exact Phrase.Primary.moved ih h

/-! ## Moved programs -/

section

variable {f : Pos → Pos} {n : Nat} {ts : List Token}

theorem Phrase.Declaration.moved {d : Node} (h : Phrase.Declaration (Derives n) ts d) :
    Phrase.Declaration (Derives n) (ts.map (Token.moved f)) (d.moved f) := by
  have hmovable := movable_derives f n
  cases h with
  | @binding _ t _ _ _ ht hb hd => exact .binding (t := t.moved f) ht (hb.moved hmovable) hd.moved
  | @letIn _ t _ _ ht he => exact .letIn (t := t.moved f) ht (he.moved hmovable)
  | @expression _ t _ _ he => exact .expression (t := t.moved f) (hmovable .expression _ _ _ he)

theorem Phrase.Separators.moved (h : Phrase.Separators ts) : Phrase.Separators (ts.map (Token.moved f)) := by
  intro t ht
  obtain ⟨u, hu, rfl⟩ := List.mem_map.mp ht
  exact h u hu

theorem Phrase.Declarations.moved {ds : List Node} (h : Phrase.Declarations (Derives n) ts ds) :
    Phrase.Declarations (Derives n) (ts.map (Token.moved f)) (ds.map (Node.moved f)) := by
  induction h with
  | nil => exact .nil
  | @cons us seps rest d ds hd hseps hfollow _ ih =>
    rw [List.map_append, List.map_append]
    refine .cons hd.moved hseps.moved (hfollow.imp (fun hne hnil => ?_) fun hlet t ht => ?_) ih
    · exact hne (List.map_eq_nil_iff.mp hnil)
    · rw [List.head?_map] at ht
      obtain ⟨u, hu, rfl⟩ := Option.map_eq_some_iff.mp ht
      exact hlet u hu

/-- Tokens that are read without a fault are read so elsewhere, as the same declarations. -/
theorem read_moved {budget : Nat} {stop : Pos} {ds : List Node} (h : Parsed.read budget stop ts = (ds, []))
    (f : Pos → Pos) (stop' : Pos) :
    Parsed.read budget stop' (ts.map (Token.moved f)) = (ds.map (Node.moved f), []) := by
  have hprogram := (collect_eq_nil (Nat.le_refl _)).mp h
  refine (collect_eq_nil (Nat.le_refl _)).mpr ?_
  cases hprogram with
  | mk hseps hds =>
    rw [List.map_append]
    exact .mk hseps.moved hds.moved

end

end Camlet
