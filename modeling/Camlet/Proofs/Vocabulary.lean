import Camlet.Proofs.Grammar
import Camlet.Proofs.Recognition

/-
  The vocabulary of phrases. No phrase holds a malformed token, and of the delimiters it holds brackets and
  bars only; so a text that is read as a phrase can be cut off at a semicolon.
-/

namespace Camlet

/-- A token that may stand in a phrase. -/
structure Token.Speakable (t : Token) : Prop where
  sound : t.kind ≠ .error
  delimiter : t.kind = .delimiter → t.lexeme ∈ ["(", ")", "|"]

theorem Token.speakable_of_kind {t : Token} {k : TokenKind} (h : t.kind = k)
    (hk : k ≠ .error ∧ k ≠ .delimiter) : t.Speakable :=
  ⟨h ▸ hk.1, fun hd => absurd (h.symm.trans hd) hk.2⟩

theorem Token.speakable_of_isA {t : Token} {k : TokenKind} {s : String} (h : t.isA k s = true)
    (hk : k ≠ .error ∧ (k = .delimiter → s ∈ ["(", ")", "|"])) : t.Speakable := by
  obtain ⟨rfl, rfl⟩ := Token.isA_iff.mp h
  exact ⟨hk.1, hk.2⟩

/-- All tokens of the phrases of every rule may stand in one. -/
def Spoken (L : Nonterminal → Language Node) : Prop :=
  ∀ nt loose ts e, L nt loose ts e → ∀ t ∈ ts, t.Speakable

namespace Phrase

open Token (speakable_of_kind speakable_of_isA)

theorem Pattern.speakable {t : Token} {p : Node} (h : Pattern t p) : t.Speakable := by
  cases h with
  | wildcard hk | bind hk => exact speakable_of_kind hk (by decide)

theorem Params.speakable {ps : List Token} (h : Params ps) : ∀ t ∈ ps, t.Speakable :=
  fun p hp => speakable_of_kind (h.names p hp) (by decide)

variable {L : Nonterminal → Language Node} (h : Spoken L)

include h

theorem Binding.speakable {loose : Bool} {ts : List Token} {b : Camlet.Binding} (hb : Binding L loose ts b) :
    ∀ t ∈ ts, t.Speakable := by
  cases hb with
  | plain hn hps heq hv =>
    simp only [List.forall_mem_append, List.forall_mem_cons]
    exact ⟨⟨speakable_of_kind hn (by decide), hps.speakable⟩, speakable_of_isA heq (by decide),
      h .bound _ _ _ hv⟩
  | recursive hr hn hps heq hv =>
    simp only [List.forall_mem_append, List.forall_mem_cons]
    exact ⟨⟨speakable_of_isA hr (by decide), speakable_of_kind hn (by decide), hps.speakable⟩,
      speakable_of_isA heq (by decide), h .bound _ _ _ hv⟩

theorem Cases.speakable {ts : List Token} {cs : List (Node × Node)} (hcs : Cases L ts cs) :
    ∀ t ∈ ts, t.Speakable := by
  have hcase : ∀ {loose us c}, Case L loose us c → ∀ t ∈ us, t.Speakable := by
    rintro loose us c ⟨hb, hp, ha, he⟩
    simp only [List.forall_mem_cons]
    exact ⟨speakable_of_isA hb (by decide), hp.speakable, speakable_of_isA ha (by decide),
      h .expression _ _ _ he⟩
  induction hcs with
  | last hc => exact hcase hc
  | more hc _ ih => exact List.forall_mem_append.mpr ⟨hcase hc, ih⟩

theorem Expression.speakable {loose : Bool} {ts : List Token} {e : Node} (he : Expression L loose ts e) :
    ∀ t ∈ ts, t.Speakable := by
  cases he with
  | letIn ht he =>
    cases he with
    | mk hb hi he =>
      simp only [List.forall_mem_append, List.forall_mem_cons]
      exact ⟨speakable_of_isA ht (by decide), hb.speakable h, speakable_of_isA hi (by decide),
        h .expression _ _ _ he⟩
  | cond ht he =>
    cases he with
    | mk hc hthen ha helse hb =>
      simp only [List.forall_mem_append, List.forall_mem_cons]
      exact ⟨speakable_of_isA ht (by decide), ⟨h .expression _ _ _ hc, speakable_of_isA hthen (by decide),
        h .expression _ _ _ ha⟩, speakable_of_isA helse (by decide), h .expression _ _ _ hb⟩
  | lambda ht he =>
    cases he with
    | mk _ hps ha he =>
      simp only [List.forall_mem_append, List.forall_mem_cons]
      exact ⟨speakable_of_isA ht (by decide), hps.speakable, speakable_of_isA ha (by decide),
        h .expression _ _ _ he⟩
  | matching ht he =>
    cases he with
    | mk hs hw hcs =>
      simp only [List.forall_mem_append, List.forall_mem_cons]
      exact ⟨speakable_of_isA ht (by decide), h .expression _ _ _ hs, speakable_of_isA hw (by decide),
        hcs.speakable h⟩
  | level he => exact h _ _ _ _ he

theorem Unary.speakable {loose : Bool} {ts : List Token} {e : Node} (he : Unary L loose ts e) :
    ∀ t ∈ ts, t.Speakable := by
  cases he with
  | sign ht he =>
    have hsign := ht.elim (speakable_of_isA · (by decide)) (speakable_of_isA · (by decide))
    exact List.forall_mem_cons.mpr ⟨hsign, h .unary _ _ _ he⟩
  | application he => exact h .application _ _ _ he

theorem Primary.speakable {loose : Bool} {ts : List Token} {e : Node} (he : Primary L loose ts e) :
    ∀ t ∈ ts, t.Speakable := by
  cases he with
  | int hk | float hk | string hk | char hk | ident hk | backtick hk =>
    exact List.forall_mem_singleton.mpr (speakable_of_kind hk (by decide))
  | bracketed ho he hc =>
    simp only [List.forall_mem_append, List.forall_mem_cons]
    exact ⟨⟨speakable_of_isA ho (by decide), h .expression _ _ _ he⟩, speakable_of_isA hc (by decide),
      List.forall_mem_nil _⟩

omit h in
theorem Level.speakable {operators : List String} {operand : Language Node}
    (h : ∀ loose ts e, operand loose ts e → ∀ t ∈ ts, t.Speakable) {loose : Bool} {ts : List Token} {e : Node}
    (he : Level operators operand loose ts e) : ∀ t ∈ ts, t.Speakable := by
  induction he with
  | operand he => exact h _ _ _ he
  | @binary t _ _ _ _ _ _ ht hr ih =>
    have hoperator : t.Speakable :=
      ht.kind.elim (speakable_of_kind · (by decide)) (speakable_of_kind · (by decide))
    exact List.forall_mem_append.mpr ⟨ih, List.forall_mem_cons.mpr ⟨hoperator, h _ _ _ hr⟩⟩

omit h in
theorem Application.speakable {primary : Language Node}
    (h : ∀ loose ts e, primary loose ts e → ∀ t ∈ ts, t.Speakable) {loose : Bool} {ts : List Token} {e : Node}
    (he : Application primary loose ts e) : ∀ t ∈ ts, t.Speakable := by
  induction he with
  | callee he => exact h _ _ _ he
  | argument _ ha ih => exact List.forall_mem_append.mpr ⟨ih, h _ _ _ ha⟩

end Phrase

theorem spoken_derives (n : Nat) : Spoken (Derives n) := by
  induction n with
  | zero => exact fun _ _ _ _ h => h.elim
  | succ n ih =>
    intro nt loose ts e h
    match nt with
    | .expression => exact Phrase.Expression.speakable ih h
    | .bound => exact ih .expression _ _ _ h
    | .level [] => exact ih .unary _ _ _ h
    | .level (_ :: tighter) => exact Phrase.Level.speakable (ih (.level tighter)) h
    | .unary => exact Phrase.Unary.speakable ih h
    | .application => exact Phrase.Application.speakable (ih .primary) h
    | .primary => exact Phrase.Primary.speakable ih h

end Camlet
