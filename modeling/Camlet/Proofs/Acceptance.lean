import Camlet.Proofs.Blanks
import Camlet.Proofs.Nearest
import Camlet.Proofs.Printing
import Camlet.Proofs.Programs

/-
  What is accepted. Tokens are read without a fault exactly when they derive from the grammar, however
  deep the derivation, as long as reading does not give up for the nesting; and then reading gives the
  trees of the derivation. The grammar allows separators in front of the first declaration, as reading
  does.
-/

namespace Camlet

/-- The tokens that count: all but comments. -/
def significant (ts : List Token) : List Token := ts.filter (·.kind != .comment)

/-- What is read of tokens that end with their only end of input. -/
theorem parseWithin_append {budget : Nat} {body : List Token} {last : Token}
    (hbody : ∀ t ∈ body, t.kind ≠ .endOfInput) (hlast : last.kind = .endOfInput) :
    parseWithin budget (body ++ [last]) =
      let p := Parsed.collect budget last.pos (significant body).length (significant body)
      ⟨p.1.head?.map fun d => ⟨d.pos, p.1⟩, p.2⟩ := by
  have hsig : (body ++ [last]).filter (·.kind != .comment) = significant body ++ [last] := by
    simp [significant, hlast]
  have hne : ∀ t ∈ significant body, (t.kind != .endOfInput) = true := by
    intro t ht
    simpa using hbody t (List.mem_filter.mp ht).1
  have htake : (significant body ++ [last]).takeWhile (·.kind != .endOfInput) = significant body := by
    rw [List.takeWhile_append_of_pos hne]
    simp [hlast]
  have hfind : (significant body ++ [last]).find? (·.kind == .endOfInput) = some last := by
    rw [List.find?_append, List.find?_eq_none.mpr fun t ht => by simpa using hne t ht]
    simp [hlast]
  simp only [parseWithin, hsig, htake, endPos, hfind]

/-- Tokens are read without a fault exactly if they derive within the budget. -/
theorem parseWithin_errors_eq_nil {budget : Nat} {body : List Token} {last : Token}
    (hbody : ∀ t ∈ body, t.kind ≠ .endOfInput) (hlast : last.kind = .endOfInput) :
    (parseWithin budget (body ++ [last])).errors = [] ↔
      ∃ ds, Phrase.Program (Derives budget) (significant body) ds := by
  rw [parseWithin_append hbody hlast]
  constructor
  · intro h
    exact ⟨_, (collect_eq_nil (Nat.le_refl _)).mp (Prod.ext rfl h)⟩
  · rintro ⟨ds, h⟩
    exact congrArg Prod.snd ((collect_eq_nil (Nat.le_refl _)).mpr h)

/-- What is read without a fault derives within the budget. -/
theorem parseWithin_phrase {budget : Nat} {body : List Token} {last : Token}
    (hbody : ∀ t ∈ body, t.kind ≠ .endOfInput) (hlast : last.kind = .endOfInput)
    (herrors : (parseWithin budget (body ++ [last])).errors = []) {p : Program}
    (hp : (parseWithin budget (body ++ [last])).program = some p) :
    Phrase.Program (Derives budget) (significant body) p.body := by
  rw [parseWithin_append hbody hlast] at herrors hp
  obtain ⟨d, -, rfl⟩ := Option.map_eq_some_iff.mp hp
  exact (collect_eq_nil (Nat.le_refl _)).mp (Prod.ext rfl herrors)

/-- What derives at some depth is read, unless reading gives up for the nesting. -/
theorem collect_of_derives {budget n : Nat} {stop : Pos} {ts : List Token} {ds : List Node}
    (hdeep : ∀ f ∈ (Parsed.collect budget stop ts.length ts).2, f.val ≠ .tooDeep)
    (h : Phrase.Program (Derives n) ts ds) :
    Parsed.collect budget stop ts.length ts = (ds, []) := by
  have hn : Parsed.collect n stop ts.length ts = (ds, []) := (collect_eq_nil (Nat.le_refl _)).mpr h
  have hmax : Parsed.collect (max budget n) stop ts.length ts = (ds, []) := by
    rw [collect_extends (Nat.le_max_right budget n) (by simp [hn]), hn]
  rw [← collect_extends (Nat.le_max_left budget n) hdeep, hmax]

/-- Reading accepts exactly the programs of the grammar and gives the trees of the derivation. The whole
numbers of the derivation are those that the numerals spell, and its floating-point numbers those nearest to what the
decimals spell. -/
theorem parseWithin_accepts {budget : Nat} {body : List Token} {last : Token}
    (hbody : ∀ t ∈ body, Lexed t) (hlast : last.kind = .endOfInput)
    (hdeep : ∀ f ∈ (parseWithin budget (body ++ [last])).errors, f.val ≠ .tooDeep) :
    ((parseWithin budget (body ++ [last])).errors = [] ↔
      ∃ n ds, Phrase.Program (Derives n) (significant body) ds) ∧
    (∀ n ds, Phrase.Program (Derives n) (significant body) ds →
      (parseWithin budget (body ++ [last])).program = ds.head?.map fun d => ⟨d.pos, ds⟩) ∧
    (∀ t ∈ body, t.kind = .int → Number.readInt? t.lexeme =
      if t.lexeme.length ≤ 4300 then some (Nat.ofDigitChars 10 t.lexeme.toList 0 : Int) else none) ∧
    (∀ t ∈ body, t.kind = .float → ∃ q x,
      Number.Spells t.lexeme.toList q ∧ Number.readFloat? t.lexeme = some x ∧ Number.Nearest false q x) := by
  have hbody' : ∀ t ∈ body, t.kind ≠ .endOfInput := fun t ht => (hbody t ht).kind_ne_endOfInput
  have hcollect : ∀ n ds, Phrase.Program (Derives n) (significant body) ds →
      Parsed.collect budget last.pos (significant body).length (significant body) = (ds, []) := by
    intro n ds h
    rw [parseWithin_append hbody' hlast] at hdeep
    exact collect_of_derives hdeep h
  refine ⟨⟨?_, ?_⟩, ?_, fun t ht => (hbody t ht).readInt?, fun t ht => (hbody t ht).readFloat?⟩
  · intro h
    obtain ⟨ds, hds⟩ := (parseWithin_errors_eq_nil hbody' hlast).mp h
    exact ⟨budget, ds, hds⟩
  · rintro ⟨n, ds, h⟩
    rw [parseWithin_append hbody' hlast, hcollect n ds h]
  · intro n ds h
    rw [parseWithin_append hbody' hlast, hcollect n ds h]

/-- A program behind a separator. It holds parameters, operators of several levels with a sign in front, a recursive
function without parameters, a case distinction in another, a `let` that ends a declaration, and a local function. -/
def separatedSource : String :=
  ";; let f x _ = - x * 2 + 3 or x;; let rec g = fun n -> fun m -> match n with | a -> match a with " ++
    "| _ -> 1 | b -> g b (f m 0) let k a b = a - b - 1 in k"

/-- Its trees, with each expression in brackets. -/
def separatedTrees : String :=
  "let f x _ = ( ( ( ( - ( x ) ) * ( 2 ) ) + ( 3 ) ) || ( x ) ) ;; " ++
    "let rec g n m = ( match ( n ) with | a -> ( match ( a ) with | _ -> ( 1 ) " ++
    "| b -> ( ( ( g ) ( b ) ) ( ( ( f ) ( m ) ) ( 0 ) ) ) ) ) ;; " ++
    "( let k = ( fun a -> ( fun b -> ( ( ( a ) - ( b ) ) - ( 1 ) ) ) ) in ( k ) ) ;;"

/-- The general statement at that program: it derives from the grammar, and the trees of the derivation are those
that are read. -/
theorem parseWithin_accepts_separated :
    let body := Lexer.body .first separatedSource.toList
    let last : Token := ⟨.endOfInput, "", ⟨1, 152⟩, none⟩
    (∀ t ∈ body, Lexed t) ∧
    (∀ f ∈ (parseWithin nestingBudget (body ++ [last])).errors, f.val ≠ .tooDeep) ∧
    ∃ n ds, Phrase.Program (Derives n) (significant body) ds ∧ printed ds = separatedTrees := by
  intro body last
  have hbody : ∀ t ∈ body, Lexed t := Lexer.body_lexed .first separatedSource.toList
  have hread : (parseWithin nestingBudget (body ++ [last])).errors = [] := by decide +kernel
  have hdeep : ∀ f ∈ (parseWithin nestingBudget (body ++ [last])).errors, f.val ≠ .tooDeep := by
    rw [hread]
    exact List.forall_mem_nil _
  obtain ⟨haccepts, htrees, -⟩ := parseWithin_accepts hbody rfl hdeep
  obtain ⟨n, ds, hds⟩ := haccepts.mp hread
  refine ⟨hbody, hdeep, n, ds, hds, ?_⟩
  have hprinted : (parseWithin nestingBudget (body ++ [last])).program.map (fun p => printed p.body) =
      some separatedTrees := by decide +kernel
  rw [htrees n ds hds] at hprinted
  cases ds with
  | nil => cases hprinted
  | cons d ds => exact Option.some_inj.mp hprinted

/-- The grammar must allow separators in front: without them, what is accepted would not all derive. -/
theorem not_parseWithin_accepts_declarations :
    ¬ ∀ (budget : Nat) (body : List Token) (last : Token),
      (∀ t ∈ body, Lexed t) → last.kind = .endOfInput →
      (∀ f ∈ (parseWithin budget (body ++ [last])).errors, f.val ≠ .tooDeep) →
      ((parseWithin budget (body ++ [last])).errors = [] ↔
        ∃ n ds, Phrase.Declarations (Derives n) (significant body) ds) := by
  intro h
  have hbody : ∀ t ∈ [(⟨.delimiter, ";;", ⟨1, 1⟩, none⟩ : Token)], Lexed t := by
    intro t ht
    obtain rfl := List.mem_singleton.mp ht
    exact ⟨';', [';'], rfl, by decide⟩
  have hread : (parseWithin nestingBudget
      ([⟨.delimiter, ";;", ⟨1, 1⟩, none⟩] ++ [⟨.endOfInput, "", ⟨1, 3⟩, none⟩])).errors = [] := by decide
  obtain ⟨n, ds, hds⟩ := (h nestingBudget _ _ hbody rfl (by rw [hread]; nofun)).mp hread
  exact absurd (hds.stops _ rfl) (by decide)

end Camlet
