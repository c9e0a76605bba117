import Mathlib
import Camlet.Proofs.Spelling
import Camlet.Tree.Display

/-
  Texts that show where they end. If two quoted texts stand in front of other text and all is the same, then the
  quoted texts are the same: the quote that ends a text is never part of a character of it. So it is with tuples
  of quoted texts, and with words, if what follows is no part of a word; and so lists of such texts are the same,
  if a separator stands between them and something else behind the last.
-/

namespace Camlet.Text

/-! ## Quoted texts -/

/-- The value of a hexadecimal digit. -/
def hexDigit (c : Char) : Nat := if isDigit c then c.toNat - 48 else c.toNat - 87

/-- The value of hexadecimal digits. -/
def hexValue (cs : List Char) : Nat := cs.foldl (fun n c => 16 * n + hexDigit c) 0

theorem hexDigit_digitChar {n : Nat} (hn : n < 16) : hexDigit (Nat.digitChar n) = n := by
  revert n
  decide

theorem length_hex (width n : Nat) : (hex width n).length = width := by
  induction width generalizing n with
  | zero => rfl
  | succ width ih => rw [hex, List.length_append, ih, List.length_singleton]

theorem hexValue_hex (width n : Nat) : hexValue (hex width n) = n % 16 ^ width := by
  induction width generalizing n with
  | zero => exact (Nat.mod_one n).symm
  | succ width ih =>
    have hlast : hexDigit (Nat.digitChar (n % 16)) = n % 16 := hexDigit_digitChar (Nat.mod_lt n (by decide))
    calc hexValue (hex width (n / 16) ++ [Nat.digitChar (n % 16)])
      _ = 16 * hexValue (hex width (n / 16)) + hexDigit (Nat.digitChar (n % 16)) := by
        rw [hexValue, List.foldl_append]
        rfl
      _ = n % 16 + 16 * (n / 16 % 16 ^ width) := by rw [ih, hlast, Nat.add_comm]
      _ = n % 16 ^ (width + 1) := by rw [Nat.pow_succ', Nat.mod_mul]

/-- Reads the character with which a quoted text starts, and what stands behind it. -/
def unquoteChar : List Char → Option (Char × List Char)
  | '\\' :: 'n' :: cs => some ('\n', cs)
  | '\\' :: 'r' :: cs => some ('\r', cs)
  | '\\' :: 't' :: cs => some ('\t', cs)
  | '\\' :: 'x' :: cs => some (Char.ofNat (hexValue (cs.take 2)), cs.drop 2)
  | '\\' :: 'u' :: cs => some (Char.ofNat (hexValue (cs.take 4)), cs.drop 4)
  | '\\' :: 'U' :: cs => some (Char.ofNat (hexValue (cs.take 8)), cs.drop 8)
  | '\\' :: c :: cs => some (c, cs)
  | c :: cs => some (c, cs)
  | [] => none

theorem unquoteChar_self {c : Char} (hc : c ≠ '\\') (r : List Char) : unquoteChar (c :: r) = some (c, r) := by
  unfold unquoteChar
  split <;> simp_all

theorem unquoteChar_numericEscape (c : Char) (r : List Char) :
    unquoteChar (numericEscape c.toNat ++ r) = some (c, r) := by
  -- The mark of the escape says how many digits there are, and these give the character back.
  have hread : ∀ width, c.toNat < 16 ^ width →
      Char.ofNat (hexValue ((hex width c.toNat ++ r).take width)) = c ∧
        (hex width c.toNat ++ r).drop width = r := by
    intro width hwidth
    have htake : (hex width c.toNat ++ r).take width = hex width c.toNat := by
      rw [List.take_append_of_le_length (Nat.le_of_eq (length_hex width _).symm),
        List.take_of_length_le (Nat.le_of_eq (length_hex width _))]
    constructor
    · rw [htake, hexValue_hex, Nat.mod_eq_of_lt hwidth, Char.ofNat_toNat]
    · exact List.drop_left' (length_hex width _)
  have hlt : c.toNat < 16 ^ 8 := c.val.toNat_lt
  unfold numericEscape
  split
  next h =>
    obtain ⟨hvalue, hrest⟩ := hread 2 h
    simp only [List.cons_append, unquoteChar, hvalue, hrest]
  next =>
    split
    next h =>
      obtain ⟨hvalue, hrest⟩ := hread 4 h
      simp only [List.cons_append, unquoteChar, hvalue, hrest]
    next =>
      obtain ⟨hvalue, hrest⟩ := hread 8 hlt
      simp only [List.cons_append, unquoteChar, hvalue, hrest]

section

variable {q : Char} (hq : q = '\'' ∨ q = '"')

include hq

theorem unquoteChar_quoteChar (c : Char) (r : List Char) : unquoteChar (quoteChar q c ++ r) = some (c, r) := by
  unfold quoteChar
  split
  next h =>
    rcases h with rfl | rfl
    · rcases hq with rfl | rfl <;> rfl
    · rfl
  next hc =>
    split
    next h => rw [h]; rfl
    next =>
      split
      next h => rw [h]; rfl
      next =>
        split
        next h => rw [h]; rfl
        next =>
          split
          · exact unquoteChar_self (fun h => hc (.inr h)) r
          · exact unquoteChar_numericEscape c r

/-- No character of a quoted text is written with the quote in front. -/
theorem quoteChar_append_ne (c : Char) (r r' : List Char) : quoteChar q c ++ r ≠ q :: r' := by
  intro h
  have hbackslash : q ≠ '\\' := by rcases hq with rfl | rfl <;> decide
  have hread := congrArg unquoteChar h
  rw [unquoteChar_quoteChar hq, unquoteChar_self hbackslash] at hread
  obtain ⟨rfl, -⟩ := Prod.mk.inj (Option.some_inj.mp hread)
  rw [quoteChar, if_pos (.inl rfl)] at h
  exact hbackslash (List.cons.inj h).1.symm

/-- Quoted characters in front of the quote are the same if all is. -/
theorem quoteChars_append_inj {cs ds r r' : List Char}
    (h : cs.flatMap (quoteChar q) ++ q :: r = ds.flatMap (quoteChar q) ++ q :: r') : cs = ds ∧ r = r' := by
  induction cs generalizing ds with
  | nil =>
    cases ds with
    | nil => exact ⟨rfl, (List.cons.inj h).2⟩
    | cons d ds =>
      rw [List.flatMap_cons, List.append_assoc] at h
      exact absurd h.symm (quoteChar_append_ne hq d _ _)
  | cons c cs ih =>
    cases ds with
    | nil =>
      rw [List.flatMap_cons, List.append_assoc] at h
      exact absurd h (quoteChar_append_ne hq c _ _)
    | cons d ds =>
      simp only [List.flatMap_cons, List.append_assoc] at h
      have hread := congrArg unquoteChar h
      rw [unquoteChar_quoteChar hq, unquoteChar_quoteChar hq] at hread
      obtain ⟨rfl, hrest⟩ := Prod.mk.inj (Option.some_inj.mp hread)
      obtain ⟨rfl, hr⟩ := ih hrest
      exact ⟨rfl, hr⟩

end

theorem quoteFor_cases (cs : List Char) : quoteFor cs = '\'' ∨ quoteFor cs = '"' := by
  unfold quoteFor
  split
  · exact .inr rfl
  · exact .inl rfl

theorem toList_quoted (s : String) :
    (quoted s).toList =
      quoteFor s.toList :: (s.toList.flatMap (quoteChar (quoteFor s.toList)) ++ [quoteFor s.toList]) := by
  rw [quoted, String.toList_ofList, List.cons_append]

/-- Quoted texts are the same if all is. -/
theorem quoted_append_inj {s t : String} {r r' : List Char} (h : (quoted s).toList ++ r = (quoted t).toList ++ r') :
    s = t ∧ r = r' := by
  simp only [toList_quoted, List.cons_append, List.append_assoc, List.nil_append] at h
  obtain ⟨hquote, hrest⟩ := List.cons.inj h
  rw [← hquote] at hrest
  obtain ⟨hchars, hr⟩ := quoteChars_append_inj (quoteFor_cases s.toList) hrest
  exact ⟨String.toList_inj.mp hchars, hr⟩

theorem quoted_inj {s t : String} : quoted s = quoted t ↔ s = t := by
  constructor
  · intro h
    have hempty : (quoted s).toList ++ [] = (quoted t).toList ++ [] := by rw [h]
    exact (quoted_append_inj hempty).1
  · exact congrArg quoted

/-! ## Texts with something behind -/

/-- The text starts with one of the characters. -/
def StartsWith (stops r : List Char) : Prop := ∃ c ∈ stops, ∃ rest, r = c :: rest

theorem startsWith_cons {stops : List Char} {c : Char} (hc : c ∈ stops) (r : List Char) : StartsWith stops (c :: r) :=
  ⟨c, hc, r, rfl⟩

/-- Of the two texts neither goes on where the other ends, if one of the stops stands behind both. -/
def Discerned (stops t u : List Char) : Prop :=
  ∀ r r', StartsWith stops r → StartsWith stops r' → t ++ r = u ++ r' → t = u

variable {stops : List Char}

theorem discerned_quoted (s t : String) : Discerned stops (quoted s).toList (quoted t).toList := by
  intro r r' _ _ h
  rw [(quoted_append_inj h).1]

/-- Words are discerned if no stop is part of a word. -/
theorem discerned_words {p : Char → Bool} (hstops : stops.any p = false) {t u : List Char}
    (ht : ∀ c ∈ t, p c = true) (hu : ∀ c ∈ u, p c = true) : Discerned stops t u := by
  have hword : ∀ t r, (∀ c ∈ t, p c = true) → StartsWith stops r → (t ++ r).takeWhile p = t := by
    intro t r ht hr
    obtain ⟨c, hc, rest, rfl⟩ := hr
    rw [List.takeWhile_append_of_pos ht, List.takeWhile_cons_of_neg (List.any_eq_false.mp hstops c hc),
      List.append_nil]
  intro r r' hr hr' h
  rw [← hword t r ht hr, h, hword u r' hu hr']

section

variable {sep stop : Char} {seps : List Char} {ts us : List (List Char)} {r r' : List Char}

theorem startsWith_separated (ts : List (List Char)) (r : List Char) :
    StartsWith [sep, stop] (ts.flatMap (fun t => sep :: seps ++ t) ++ stop :: r) := by
  cases ts with
  | nil => exact startsWith_cons (by simp) r
  | cons t ts => exact startsWith_cons (by simp) _

/-- Lists with a separator in front of each text are the same if all is. -/
theorem separated_append_inj (hne : sep ≠ stop) (htu : ∀ t ∈ ts, ∀ u ∈ us, Discerned [sep, stop] t u)
    (h : ts.flatMap (fun t => sep :: seps ++ t) ++ stop :: r = us.flatMap (fun t => sep :: seps ++ t) ++ stop :: r') :
    ts = us ∧ r = r' := by
  induction ts generalizing us with
  | nil =>
    cases us with
    | nil => exact ⟨rfl, (List.cons.inj h).2⟩
    | cons u us => exact absurd (List.cons.inj h).1.symm hne
  | cons t ts ih =>
    cases us with
    | nil => exact absurd (List.cons.inj h).1 hne
    | cons u us =>
      simp only [List.flatMap_cons, List.cons_append, List.append_assoc] at h
      have htail := List.append_cancel_left (List.cons.inj h).2
      have heq : t = u := htu t (List.mem_cons_self ..) u (List.mem_cons_self ..) _ _ (startsWith_separated ts r)
        (startsWith_separated us r') htail
      subst heq
      obtain ⟨rfl, hr⟩ := ih (fun t ht u hu => htu t (List.mem_cons_of_mem _ ht) u (List.mem_cons_of_mem _ hu))
        (List.append_cancel_left htail)
      exact ⟨rfl, hr⟩

theorem intercalate_cons (t : List Char) (ts : List (List Char)) (sep : List Char) :
    sep.intercalate (t :: ts) = t ++ ts.flatMap fun t => sep ++ t := by
  induction ts generalizing t with
  | nil => simp [List.intercalate]
  | cons u ts ih => rw [List.intercalate_cons_cons, ih, List.flatMap_cons, List.append_assoc, List.append_assoc]

/-- Lists with a separator between the texts are the same if all is, unless one is empty. -/
theorem intercalate_append_inj (hne : sep ≠ stop) (htu : ∀ t ∈ ts, ∀ u ∈ us, Discerned [sep, stop] t u)
    (hts : ts ≠ []) (hus : us ≠ [])
    (h : (sep :: seps).intercalate ts ++ stop :: r = (sep :: seps).intercalate us ++ stop :: r') :
    ts = us ∧ r = r' := by
  obtain ⟨t, ts, rfl⟩ := List.exists_cons_of_ne_nil hts
  obtain ⟨u, us, rfl⟩ := List.exists_cons_of_ne_nil hus
  rw [intercalate_cons, intercalate_cons, List.append_assoc, List.append_assoc] at h
  have heq : t = u := htu t (List.mem_cons_self ..) u (List.mem_cons_self ..) _ _ (startsWith_separated ts r)
    (startsWith_separated us r') h
  subst heq
  obtain ⟨rfl, hr⟩ := separated_append_inj hne
    (fun t ht u hu => htu t (List.mem_cons_of_mem _ ht) u (List.mem_cons_of_mem _ hu)) (List.append_cancel_left h)
  exact ⟨rfl, hr⟩

/-- They are the same also where one is empty, if no text starts with the character behind the last. -/
theorem enclosed_append_inj (hne : sep ≠ stop) (htu : ∀ t ∈ ts, ∀ u ∈ us, Discerned [sep, stop] t u)
    (hts : ∀ t ∈ ts, ∀ r r', t ++ r ≠ stop :: r') (hus : ∀ u ∈ us, ∀ r r', u ++ r ≠ stop :: r')
    (h : (sep :: seps).intercalate ts ++ stop :: r = (sep :: seps).intercalate us ++ stop :: r') :
    ts = us ∧ r = r' := by
  cases ts with
  | nil =>
    cases us with
    | nil => exact ⟨rfl, (List.cons.inj h).2⟩
    | cons u us =>
      rw [intercalate_cons, List.append_assoc] at h
      exact absurd h.symm (hus u (List.mem_cons_self ..) _ _)
  | cons t ts =>
    cases us with
    | nil =>
      rw [intercalate_cons, List.append_assoc] at h
      exact absurd h (hts t (List.mem_cons_self ..) _ _)
    | cons u us => exact intercalate_append_inj hne htu (List.cons_ne_nil t ts) (List.cons_ne_nil u us) h

end

/-! ## Tuples -/

/-- What stands in a tuple behind its first text. -/
def tupleRest : List String → List Char
  | [] => [',', ')']
  | s :: ss => ((s :: ss).map fun s => (quoted s).toList).flatMap (fun t => [',', ' '] ++ t) ++ [')']

theorem toList_quotedTuple (s : String) (ss : List String) :
    (quotedTuple (s :: ss)).toList = '(' :: ((quoted s).toList ++ tupleRest ss) := by
  cases ss with
  | nil => simp [quotedTuple, tupleRest]
  | cons t ss =>
    simp only [quotedTuple, String.toList_append, String.toList_intercalate, List.map_cons]
    rw [show (", " : String).toList = [',', ' '] from rfl, intercalate_cons]
    simp [tupleRest, Function.comp_def]

theorem tupleRest_append_inj {ss ts : List String} {r r' : List Char} (h : tupleRest ss ++ r = tupleRest ts ++ r') :
    ss = ts ∧ r = r' := by
  cases ss with
  | nil =>
    cases ts with
    | nil => exact ⟨rfl, List.append_cancel_left h⟩
    | cons t ts => exact absurd (List.cons.inj (List.cons.inj h).2).1 (by decide)
  | cons s ss =>
    cases ts with
    | nil => exact absurd (List.cons.inj (List.cons.inj h).2).1 (by decide)
    | cons t ts =>
      rw [tupleRest, tupleRest, List.append_assoc, List.append_assoc] at h
      have hdiscerned : ∀ x ∈ (s :: ss).map fun s => (quoted s).toList,
          ∀ y ∈ (t :: ts).map fun s => (quoted s).toList, Discerned [',', ')'] x y := by
        intro x hx y hy
        obtain ⟨x, -, rfl⟩ := List.mem_map.mp hx
        obtain ⟨y, -, rfl⟩ := List.mem_map.mp hy
        exact discerned_quoted x y
      obtain ⟨hlists, hr⟩ := separated_append_inj (by decide) hdiscerned h
      exact ⟨(List.map_inj_right fun _ _ hxy => quoted_inj.mp (String.toList_inj.mp hxy)).mp hlists, hr⟩

/-- Tuples of quoted texts are the same if all is. -/
theorem quotedTuple_append_inj {ss ts : List String} {r r' : List Char}
    (h : (quotedTuple ss).toList ++ r = (quotedTuple ts).toList ++ r') : ss = ts ∧ r = r' := by
  have hempty : ∀ (t : String) (ts : List String) (r r' : List Char),
      (quotedTuple []).toList ++ r ≠ (quotedTuple (t :: ts)).toList ++ r' := by
    intro t ts r r' h
    rw [toList_quotedTuple, toList_quoted] at h
    have hquote := (List.cons.inj (List.cons.inj h).2).1
    rcases quoteFor_cases t.toList with hq | hq
    · rw [hq] at hquote
      exact absurd hquote (by decide)
    · rw [hq] at hquote
      exact absurd hquote (by decide)
  cases ss with
  | nil =>
    cases ts with
    | nil => exact ⟨rfl, List.append_cancel_left h⟩
    | cons t ts => exact absurd h (hempty t ts r r')
  | cons s ss =>
    cases ts with
    | nil => exact absurd h.symm (hempty s ss r' r)
    | cons t ts =>
      rw [toList_quotedTuple, toList_quotedTuple, List.cons_append, List.cons_append, List.append_assoc,
        List.append_assoc] at h
      obtain ⟨rfl, hrest⟩ := quoted_append_inj (List.cons.inj h).2
      obtain ⟨rfl, hr⟩ := tupleRest_append_inj hrest
      exact ⟨rfl, hr⟩

theorem quotedTuple_inj {ss ts : List String} : quotedTuple ss = quotedTuple ts ↔ ss = ts := by
  constructor
  · intro h
    have hempty : (quotedTuple ss).toList ++ [] = (quotedTuple ts).toList ++ [] := by rw [h]
    exact (quotedTuple_append_inj hempty).1
  · exact congrArg quotedTuple

end Camlet.Text
