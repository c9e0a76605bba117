import Mathlib.Data.List.Forall2
import Camlet.Proofs.Delimiting
import Camlet.Proofs.Nearest
import Camlet.Proofs.Shape

/-
  Printed trees determine the tree. A node is printed as its class, and in brackets its attributes and the
  list of the nodes below it. An attribute ends at the next comma or bracket that is not in quotes, and the
  nodes of the list end where what is printed of them ends, so all of it is found again in the text, with
  anything behind it. Texts in quotes may hold commas, brackets and line ends.

  Places are not printed, and a program is printed unless it is nested too deeply; so two programs are printed
  the same exactly if they differ in their places alone.
-/

namespace Camlet

open Text

namespace Node

/-- A character of a number or a truth value as it is printed. -/
def isWordChar (c : Char) : Bool := c.isAlphanum || c == '.' || c == '+' || c == '-'

/-- A character of the name of a field. -/
def isNameChar (c : Char) : Bool := c.isLower || c == '_'

/-- The text of a field that holds no nodes: quoted, a tuple, or a word. -/
inductive IsValueText : List Char → Prop
  | quoted (s : String) : IsValueText (quoted s).toList
  | tuple (ss : List String) : IsValueText (quotedTuple ss).toList
  | word {w : List Char} : (∀ c ∈ w, isWordChar c = true) → IsValueText w

theorem head_quoted (s : String) : ∃ q rest, (quoted s).toList = q :: rest ∧ (q = '\'' ∨ q = '"') :=
  ⟨_, _, toList_quoted s, quoteFor_cases s.toList⟩

theorem head_quotedTuple (ss : List String) : ∃ rest, (quotedTuple ss).toList = '(' :: rest := by
  cases ss with
  | nil => exact ⟨[')'], rfl⟩
  | cons s ss => exact ⟨_, toList_quotedTuple s ss⟩

theorem head_word {w r rest : List Char} {c : Char} (hw : ∀ c ∈ w, isWordChar c = true) (hr : StartsWith [',', ')'] r)
    (h : w ++ r = c :: rest) : isWordChar c = true ∨ c ∈ [',', ')'] := by
  cases w with
  | nil =>
    obtain ⟨d, hd, rest', rfl⟩ := hr
    exact .inr ((List.cons.inj h).1 ▸ hd)
  | cons d w => exact .inl ((List.cons.inj h).1 ▸ hw d (List.mem_cons_self ..))

namespace IsValueText

variable {v w r r' : List Char}

/-- A value never starts like a list of nodes. -/
theorem head_ne (hv : IsValueText v) : v.head? ≠ some '[' := by
  cases hv with
  | quoted s =>
    obtain ⟨q, rest, hs, hq⟩ := head_quoted s
    rw [hs]
    rcases hq with rfl | rfl <;> simp
  | tuple ss =>
    obtain ⟨rest, hss⟩ := head_quotedTuple ss
    rw [hss]
    simp
  | word hw =>
    intro h
    exact absurd (hw '[' (List.mem_of_mem_head? h)) (by decide)

theorem quoted_ne_tuple (s : String) (ss : List String) :
    (Text.quoted s).toList ++ r ≠ (quotedTuple ss).toList ++ r' := by
  obtain ⟨q, rest, hs, hq⟩ := head_quoted s
  obtain ⟨rest', hss⟩ := head_quotedTuple ss
  rw [hs, hss]
  intro h
  rcases hq with rfl | rfl
  · exact absurd (List.cons.inj h).1 (by decide)
  · exact absurd (List.cons.inj h).1 (by decide)

theorem quoted_ne_word (s : String) (hw : ∀ c ∈ w, isWordChar c = true) (hr : StartsWith [',', ')'] r') :
    (Text.quoted s).toList ++ r ≠ w ++ r' := by
  obtain ⟨q, rest, hs, hq⟩ := head_quoted s
  rw [hs]
  intro h
  have hhead := head_word hw hr h.symm
  rcases hq with rfl | rfl
  · exact absurd hhead (by decide)
  · exact absurd hhead (by decide)

theorem tuple_ne_word (ss : List String) (hw : ∀ c ∈ w, isWordChar c = true) (hr : StartsWith [',', ')'] r') :
    (quotedTuple ss).toList ++ r ≠ w ++ r' := by
  obtain ⟨rest, hss⟩ := head_quotedTuple ss
  rw [hss]
  intro h
  exact absurd (head_word hw hr h.symm) (by decide)

theorem discerned (hv : IsValueText v) (hw : IsValueText w) : Discerned [',', ')'] v w := by
  intro r r' hr hr' h
  cases hv with
  | quoted s =>
    cases hw with
    | quoted t => exact discerned_quoted s t r r' hr hr' h
    | tuple ts => exact absurd h (quoted_ne_tuple s ts)
    | word hw => exact absurd h (quoted_ne_word s hw hr')
  | tuple ss =>
    cases hw with
    | quoted t => exact absurd h.symm (quoted_ne_tuple t ss)
    | tuple ts => rw [(quotedTuple_append_inj h).1]
    | word hw => exact absurd h (tuple_ne_word ss hw hr')
  | word hv =>
    cases hw with
    | quoted t => exact absurd h.symm (quoted_ne_word t hv hr)
    | tuple ts => exact absurd h.symm (tuple_ne_word ts hv hr)
    | word hw => exact discerned_words (by decide) hv hw r r' hr hr' h

end IsValueText

/-! ## Attributes -/

/-- An attribute as it is printed: the name of a field and its text. -/
def IsAttribute (t : List Char) : Prop :=
  ∃ name value, t = name ++ '=' :: value ∧ (∀ c ∈ name, isNameChar c = true) ∧ IsValueText value

/-- The list of the nodes below, as an attribute. -/
def block (indent : List Char) (below : List (List Char)) : List Char :=
  ['n', 'o', 'd', 'e', 's'] ++ '=' :: '[' :: '\n' :: ([',', '\n'].intercalate below ++ '\n' :: (indent ++ [']']))

theorem name_append_inj {name name' value value' : List Char} (hname : ∀ c ∈ name, isNameChar c = true)
    (hname' : ∀ c ∈ name', isNameChar c = true) (h : name ++ '=' :: value = name' ++ '=' :: value') :
    name = name' ∧ value = value' := by
  have hwords : Discerned ['='] name name' := discerned_words rfl hname hname'
  obtain rfl := hwords _ _ (startsWith_cons (by simp) value) (startsWith_cons (by simp) value') h
  exact ⟨rfl, (List.cons.inj (List.append_cancel_left h)).2⟩

theorem IsAttribute.discerned {t u : List Char} (ht : IsAttribute t) (hu : IsAttribute u) :
    Discerned [',', ')'] t u := by
  intro r r' hr hr' h
  obtain ⟨name, value, rfl, hname, hvalue⟩ := ht
  obtain ⟨name', value', rfl, hname', hvalue'⟩ := hu
  rw [List.append_assoc, List.append_assoc] at h
  obtain ⟨rfl, hvalues⟩ := name_append_inj hname hname' h
  rw [hvalue.discerned hvalue' r r' hr hr' hvalues]

theorem IsAttribute.append_ne_block {t indent : List Char} {below : List (List Char)} {r r' : List Char}
    (ht : IsAttribute t) (hr : StartsWith [',', ')'] r) : t ++ r ≠ block indent below ++ r' := by
  intro h
  obtain ⟨name, value, rfl, hname, hvalue⟩ := ht
  rw [block, List.append_assoc, List.append_assoc] at h
  obtain ⟨-, hvalues⟩ := name_append_inj hname (List.all_eq_true.mp (by decide)) h
  cases value with
  | nil =>
    obtain ⟨c, hc, rest, rfl⟩ := hr
    exact absurd ((List.cons.inj hvalues).1 ▸ hc) (by decide)
  | cons c value => exact hvalue.head_ne (congrArg some (List.cons.inj hvalues).1)

theorem block_append_inj {indent : List Char} {ts us : List (List Char)} {r r' : List Char} (hts : ts ≠ [])
    (hus : us ≠ []) (htu : ∀ t ∈ ts, ∀ u ∈ us, Discerned [',', '\n'] t u)
    (h : block indent ts ++ r = block indent us ++ r') : ts = us := by
  simp only [block, List.append_assoc, List.cons_append, List.nil_append, List.cons.injEq, true_and] at h
  exact (intercalate_append_inj (by decide) htu hts hus h).1

theorem isName_fields (n : Node) : ∀ e ∈ n.fields, e.1.toList.all isNameChar = true := by
  cases n <;> simp only [fields, List.forall_mem_cons] <;> decide

theorem isWordChar_of_isDigit {c : Char} (h : isDigit c = true) : isWordChar c = true := by
  have hdigit : c.isDigit = true := h
  simp [isWordChar, Char.isAlphanum, hdigit]

theorem isWordChar_writeInt (n : Int) : ∀ c ∈ (Number.writeInt n).toList, isWordChar c = true := by
  refine forall_of_splitSign rfl rfl ?_
  rw [Number.splitSign_writeInt]
  exact fun c hc => isWordChar_of_isDigit (toDigits_isDigit hc)

theorem isWordChar_showFloat (x : Float) : ∀ c ∈ (Number.showFloat x).toList, isWordChar c = true := by
  refine forall_of_splitSign rfl rfl ?_
  rw [Number.splitSign_showFloat]
  cases hx : Number.view x with
  | nan => exact List.all_eq_true.mp (rfl : ['n', 'a', 'n'].all isWordChar = true)
  | infinite => exact List.all_eq_true.mp (rfl : ['i', 'n', 'f'].all isWordChar = true)
  | finite negative m e =>
    obtain ⟨q, ⟨whole, fraction, exponent, hcs, hnumber, -⟩, -⟩ :=
      Number.spells_magnitude (Number.isMantissa_view hx)
    show ∀ c ∈ Number.magnitude m e, isWordChar c = true
    rw [hcs]
    exact hnumber.forall (fun _ => isWordChar_of_isDigit) (by decide)

theorem isValueText_attribute {f : Field} {s : String} (h : f.attribute? = some s) : IsValueText s.toList := by
  cases f with
  | text t =>
    cases h
    exact .quoted t
  | texts ts =>
    cases h
    exact .tuple ts
  | flag b =>
    cases h
    cases b <;> exact .word (List.all_eq_true.mp (by decide))
  | int n =>
    cases h
    exact .word (isWordChar_writeInt n)
  | float x =>
    cases h
    exact .word (isWordChar_showFloat x)
  | nodes ns =>
    cases ns with
    | nil =>
      cases h
      exact .tuple []
    | cons => cases h

theorem isAttribute_attributes {n : Node} : ∀ t ∈ n.attributes.map String.toList, IsAttribute t := by
  intro t ht
  obtain ⟨s, hs, rfl⟩ := List.mem_map.mp ht
  obtain ⟨⟨name, f⟩, he, hmap⟩ := List.mem_filterMap.mp hs
  obtain ⟨text, htext, rfl⟩ := Option.map_eq_some_iff.mp hmap
  rw [String.toList_append, String.toList_append, List.append_assoc]
  exact ⟨_, _, rfl, List.all_eq_true.mp (isName_fields n _ he), isValueText_attribute htext⟩

/-! ## Frames -/

/-- What stands between the brackets of a node that is printed: its attributes, and the nodes below it. -/
def items (indent : List Char) (n : Node) (below : List String) : List (List Char) :=
  n.attributes.map String.toList ++ if below = [] then [] else [block indent (below.map String.toList)]

theorem toList_frame (level : Int) (n : Node) (below : List String) :
    (frame level n below).toList = (indentation level).toList ++ (n.className.toList ++
      '(' :: ([',', ' '].intercalate (items (indentation level).toList n below) ++ [')'])) := by
  have hcons : ∀ (ts : List (List Char)) (t : List Char), ts ≠ [] →
      [',', ' '].intercalate (ts ++ [t]) = [',', ' '].intercalate ts ++ ',' :: ' ' :: t := by
    intro ts t hts
    obtain ⟨u, us, rfl⟩ := List.exists_cons_of_ne_nil hts
    rw [List.cons_append, intercalate_cons, intercalate_cons, List.flatMap_append]
    simp
  unfold frame items
  cases below with
  | nil => simp [String.toList_intercalate]
  | cons t ts =>
    cases hattrs : n.attributes with
    | nil => simp [String.toList_intercalate, List.intercalate, block]
    | cons a as =>
      rw [if_neg (List.cons_ne_nil t ts), hcons _ _ (by simp)]
      simp [String.toList_intercalate, block]

/-- Whether the text is a list of nodes, and no attribute. -/
def isBlock (t : List Char) : Bool := ((t.dropWhile (· != '=')).drop 1).head? == some '['

theorem IsAttribute.isBlock_eq_false {t : List Char} (ht : IsAttribute t) : isBlock t = false := by
  obtain ⟨name, value, rfl, hname, hvalue⟩ := ht
  have hdrop : (name ++ '=' :: value).dropWhile (· != '=') = '=' :: value := by
    rw [List.dropWhile_append_of_pos]
    · rfl
    · intro c hc
      refine bne_iff_ne.mpr fun heq => ?_
      exact absurd (hname c hc) (by rw [heq]; decide)
  rw [isBlock, hdrop]
  exact beq_eq_false_iff_ne.mpr hvalue.head_ne

theorem isBlock_block (indent : List Char) (below : List (List Char)) : isBlock (block indent below) = true := rfl

section

variable {indent : List Char} {a b : Node} {ts us : List String}

/-- The attributes of a node and the list of the nodes below it are told apart. -/
theorem items_inj (h : items indent a ts = items indent b us) :
    a.attributes = b.attributes ∧
      (if ts = [] then [] else [block indent (ts.map String.toList)]) =
        if us = [] then [] else [block indent (us.map String.toList)] := by
  have hattributes : ∀ (n : Node) (below : List String),
      (items indent n below).filter (fun t => !isBlock t) = n.attributes.map String.toList := by
    intro n below
    rw [items, List.filter_append, List.filter_eq_self.mpr fun t ht => by
      rw [(isAttribute_attributes t ht).isBlock_eq_false]; rfl]
    split <;> simp [isBlock_block]
  have hblocks : ∀ (n : Node) (below : List String), (items indent n below).filter isBlock =
      if below = [] then [] else [block indent (below.map String.toList)] := by
    intro n below
    rw [items, List.filter_append, List.filter_eq_nil_iff.mpr fun t ht => by
      rw [(isAttribute_attributes t ht).isBlock_eq_false]; decide]
    split <;> simp [isBlock_block]
  constructor
  · have hmap := congrArg (List.filter fun t => !isBlock t) h
    rw [hattributes, hattributes] at hmap
    exact (List.map_inj_right fun _ _ => String.toList_inj.mp).mp hmap
  · rw [← hblocks a, ← hblocks b, h]

theorem items_discerned (htu : ∀ t ∈ ts, ∀ u ∈ us, Discerned [',', '\n'] t.toList u.toList) :
    ∀ t ∈ items indent a ts, ∀ u ∈ items indent b us, Discerned [',', ')'] t u := by
  have hblock : ∀ (n : Node) (below : List String), ∀ t ∈ items indent n below,
      IsAttribute t ∨ below ≠ [] ∧ t = block indent (below.map String.toList) := by
    intro n below t ht
    rcases List.mem_append.mp ht with ht | ht
    · exact .inl (isAttribute_attributes t ht)
    · split at ht
      · cases ht
      next hne => exact .inr ⟨hne, List.mem_singleton.mp ht⟩
  intro t ht u hu
  rcases hblock a ts t ht with ht | ⟨hts, rfl⟩
  · rcases hblock b us u hu with hu | ⟨-, rfl⟩
    · exact ht.discerned hu
    · intro r r' hr _ h
      exact absurd h (ht.append_ne_block hr)
  · rcases hblock b us u hu with hu | ⟨hus, rfl⟩
    · intro r r' _ hr' h
      exact absurd h.symm (hu.append_ne_block hr')
    · intro r r' _ _ h
      have hne : ∀ {ss : List String}, ss ≠ [] → ss.map String.toList ≠ [] := fun hss => by simpa using hss
      have hlists : ts.map String.toList = us.map String.toList :=
        block_append_inj (hne hts) (hne hus) (by simpa using htu) h
      rw [hlists]

theorem items_head {n : Node} : ∀ t ∈ items indent n ts, ∀ r r', t ++ r ≠ ')' :: r' := by
  intro t ht r r' h
  rcases List.mem_append.mp ht with ht | ht
  · obtain ⟨name, value, rfl, hname, -⟩ := isAttribute_attributes t ht
    cases name with
    | nil => exact absurd (List.cons.inj h).1 (by decide)
    | cons c name =>
      have hc := hname c (List.mem_cons_self ..)
      rw [(List.cons.inj h).1] at hc
      exact absurd hc (by decide)
  · split at ht
    · cases ht
    · rw [List.mem_singleton.mp ht] at h
      exact absurd (List.cons.inj h).1 (by decide)

theorem isAlpha_className (n : Node) : ∀ c ∈ n.className.toList, c.isAlpha = true := by
  refine List.all_eq_true.mp ?_
  cases n <;> simp only [className] <;> decide

/-- What is printed of a node shows its class, its attributes and what is printed of the nodes below it. -/
theorem frame_append_inj {level : Int} {r r' : List Char}
    (htu : ∀ t ∈ ts, ∀ u ∈ us, Discerned [',', '\n'] t.toList u.toList)
    (h : (frame level a ts).toList ++ r = (frame level b us).toList ++ r') :
    a.className = b.className ∧ a.attributes = b.attributes ∧ ts = us := by
  simp only [toList_frame, List.append_assoc, List.cons_append, List.nil_append] at h
  have hnamed := List.append_cancel_left h
  have hwords : Discerned ['('] a.className.toList b.className.toList :=
    discerned_words rfl (isAlpha_className a) (isAlpha_className b)
  have hclass := hwords _ _ (startsWith_cons (by simp) _) (startsWith_cons (by simp) _) hnamed
  rw [hclass] at hnamed
  have hitems := (List.cons.inj (List.append_cancel_left hnamed)).2
  obtain ⟨hsame, -⟩ := enclosed_append_inj (by decide) (items_discerned htu) items_head items_head hitems
  obtain ⟨hattributes, hblocks⟩ := items_inj hsame
  refine ⟨String.toList_inj.mp hclass, hattributes, ?_⟩
  cases ts with
  | nil =>
    cases us with
    | nil => rfl
    | cons u us => cases hblocks
  | cons t ts =>
    cases us with
    | nil => cases hblocks
    | cons u us =>
      have hlists := block_append_inj (by simp) (by simp) (by simpa using htu)
        (congrArg (· ++ []) (List.cons.inj hblocks).1)
      exact (List.map_inj_right fun _ _ => String.toList_inj.mp).mp hlists

end

/-! ## Trees -/

theorem mapM_eq_some {α β : Type} {f : α → Option β} {xs : List α} {ys : List β} (h : xs.mapM f = some ys) :
    List.Forall₂ (fun x y => f x = some y) xs ys := by
  induction xs generalizing ys with
  | nil =>
    cases h
    exact .nil
  | cons x xs ih =>
    rw [List.mapM_cons] at h
    obtain ⟨y, hy, hrest⟩ := Option.bind_eq_some_iff.mp h
    obtain ⟨ys', hys, heq⟩ := Option.bind_eq_some_iff.mp hrest
    cases heq
    exact .cons hy (ih hys)

theorem displayWithin_eq_some {depth : Nat} {level : Int} {n : Node} {text : String}
    (h : displayWithin (depth + 1) level n = some text) :
    ∃ below, List.Forall₂ (fun c t => displayWithin depth (level + 1) c = some t) n.children below ∧
      text = frame level n below := by
  obtain ⟨below, hbelow, heq⟩ := Option.bind_eq_some_iff.mp h
  cases heq
  exact ⟨below, mapM_eq_some hbelow, rfl⟩

theorem flag_inj {b c : Bool} : (if b then "True" else "False") = (if c then "True" else "False") ↔ b = c := by
  cases b <;> cases c <;> decide

theorem unplacedList_eq_map (ds : List Node) : unplacedList ds = ds.map unplaced := by
  induction ds with
  | nil => rfl
  | cons d ds ih => rw [unplacedList, ih, List.map_cons]

/-! ### Nodes by their fields -/

theorem pairs_inj {α : Type} {cs ds : List (α × α)} :
    (cs.flatMap fun c => [c.1, c.2]) = (ds.flatMap fun c => [c.1, c.2]) ↔ cs = ds := by
  refine ⟨fun h => ?_, fun h => h ▸ rfl⟩
  induction cs generalizing ds with
  | nil =>
    cases ds with
    | nil => rfl
    | cons d ds => cases h
  | cons c cs ih =>
    cases ds with
    | nil => cases h
    | cons d ds =>
      obtain ⟨hfirst, hrest⟩ := List.cons.inj h
      obtain ⟨hsecond, hrest⟩ := List.cons.inj hrest
      rw [ih hrest, Prod.ext hfirst hsecond]

/-- A node is known from its class, its place and its fields. -/
theorem ext_fields {a b : Node} (hclass : a.className = b.className) (hpos : a.pos = b.pos)
    (hfields : a.fields = b.fields) : a = b := by
  cases a <;> cases b <;> first
    | (simp [className] at hclass; done)
    | simp_all [fields, pos, pairs_inj]

namespace Field

/-- A field without the places of the nodes that it holds. -/
def unplaced : Field → Field
  | nodes ns => nodes (ns.map Node.unplaced)
  | f => f

/-- The nodes that a field holds. -/
def held : Field → List Node
  | nodes ns => ns
  | _ => []

theorem attribute?_unplaced (f : Field) : f.unplaced.attribute? = f.attribute? := by
  cases f with
  | nodes ns => cases ns <;> rfl
  | _ => rfl

theorem held_unplaced (f : Field) : f.unplaced.held = f.held.map Node.unplaced := by
  cases f <;> rfl

/-- A field with its name, as it is printed, if that is an attribute. -/
def shown? (e : String × Field) : Option String := e.2.attribute?.map fun text => e.1 ++ "=" ++ text

/-- Two fields hold data of one kind. -/
inductive SameKind : Field → Field → Prop
  | text (s t : String) : SameKind (.text s) (.text t)
  | texts (ss ts : List String) : SameKind (.texts ss) (.texts ts)
  | flag (b c : Bool) : SameKind (.flag b) (.flag c)
  | int (m n : Int) : SameKind (.int m) (.int n)
  | float (x y : Float) : SameKind (.float x) (.float y)

theorem SameKind.held_eq {f g : Field} (h : f.SameKind g) : f.held = [] ∧ g.held = [] := by
  cases h <;> exact ⟨rfl, rfl⟩

/-- The attribute shows the data. -/
theorem SameKind.attribute_inj {f g : Field} (h : f.SameKind g) :
    ∃ t u, f.attribute? = some t ∧ g.attribute? = some u ∧ (t = u → f = g) := by
  cases h with
  | text => exact ⟨_, _, rfl, rfl, fun h => congrArg Field.text (quoted_inj.mp h)⟩
  | texts => exact ⟨_, _, rfl, rfl, fun h => congrArg Field.texts (quotedTuple_inj.mp h)⟩
  | flag => exact ⟨_, _, rfl, rfl, fun h => congrArg Field.flag (flag_inj.mp h)⟩
  | int => exact ⟨_, _, rfl, rfl, fun h => congrArg Field.int (Number.writeInt_inj.mp h)⟩
  | float => exact ⟨_, _, rfl, rfl, fun h => congrArg Field.float (Number.showFloat_inj.mp h)⟩

/-- The fields of two nodes of one class: a field holds data or one node, and only the last may hold any number of
nodes. -/
inductive Alike : List (String × Field) → List (String × Field) → Prop
  | nil : Alike [] []
  | node {x : String} {c d : Node} {fs gs : List (String × Field)} :
    Alike fs gs → Alike ((x, .nodes [c]) :: fs) ((x, .nodes [d]) :: gs)
  | last {x : String} {cs ds : List Node} : Alike [(x, .nodes cs)] [(x, .nodes ds)]
  | data {x : String} {f g : Field} {fs gs : List (String × Field)} :
    f.SameKind g → Alike fs gs → Alike ((x, f) :: fs) ((x, g) :: gs)

/-- Such fields agree but for places, if their attributes and the nodes in them do. -/
theorem Alike.unplaced_eq {fs gs : List (String × Field)} (h : Alike fs gs)
    (hattributes : fs.filterMap shown? = gs.filterMap shown?)
    (hbelow : (fs.flatMap fun e => e.2.held).map Node.unplaced = (gs.flatMap fun e => e.2.held).map Node.unplaced) :
    (fs.map fun e => (e.1, e.2.unplaced)) = gs.map fun e => (e.1, e.2.unplaced) := by
  induction h with
  | nil => rfl
  | @node x c d fs gs _ ih =>
    obtain ⟨hnode, hrest⟩ := List.cons.inj hbelow
    rw [List.map_cons, List.map_cons, ih hattributes hrest, unplaced, unplaced, List.map_singleton,
      List.map_singleton, hnode]
  | @last x cs ds =>
    have hnodes : cs.map Node.unplaced = ds.map Node.unplaced := by simpa [held] using hbelow
    rw [List.map_singleton, List.map_singleton, unplaced, unplaced, hnodes]
  | @data x f g fs gs hkind _ ih =>
    obtain ⟨t, u, ht, hu, hinj⟩ := hkind.attribute_inj
    obtain ⟨hf, hg⟩ := hkind.held_eq
    have hshown : ∀ {f : Field} {t : String}, f.attribute? = some t → shown? (x, f) = some (x ++ "=" ++ t) :=
      fun h => by rw [shown?, h, Option.map_some]
    rw [List.filterMap_cons_some (hshown ht), List.filterMap_cons_some (hshown hu)] at hattributes
    obtain ⟨htext, hrest⟩ := List.cons.inj hattributes
    obtain rfl := hinj ((String.append_right_inj _).mp htext)
    rw [List.flatMap_cons, List.flatMap_cons, hf, List.nil_append, List.nil_append] at hbelow
    rw [List.map_cons, List.map_cons, ih hrest hbelow]

end Field

theorem alike_fields {a b : Node} (h : a.className = b.className) : Field.Alike a.fields b.fields := by
  cases a <;> cases b <;> first
    | (simp [className] at h; done)
    | repeat constructor

theorem attributes_eq (n : Node) : n.attributes = n.fields.filterMap Field.shown? := rfl

theorem children_eq (n : Node) : n.children = n.fields.flatMap fun e => e.2.held := by
  refine congrArg (n.fields.flatMap ·) (funext fun e => ?_)
  obtain ⟨x, f⟩ := e
  cases f <;> rfl

theorem pairs_unplacedCases (cs : List (Node × Node)) :
    ((unplacedCases cs).flatMap fun c => [c.1, c.2]) = (cs.flatMap fun c => [c.1, c.2]).map unplaced := by
  induction cs with
  | nil => rfl
  | cons c cs ih =>
    rw [unplacedCases, List.flatMap_cons, List.flatMap_cons, ih, List.map_append]
    rfl

theorem fields_unplaced (n : Node) : n.unplaced.fields = n.fields.map fun e => (e.1, e.2.unplaced) := by
  cases n <;> simp [unplaced, fields, Field.unplaced, unplacedList_eq_map, pairs_unplacedCases]

theorem className_unplaced (n : Node) : n.unplaced.className = n.className := by
  cases n <;> rfl

theorem pos_unplaced (n : Node) : n.unplaced.pos = {} := by
  cases n <;> rfl

/-- A tree is known but for its places from its class, its attributes and the trees below it. -/
theorem unplaced_eq_of_parts {a b : Node} (hclass : a.className = b.className)
    (hattributes : a.attributes = b.attributes) (hbelow : a.children.map unplaced = b.children.map unplaced) :
    a.unplaced = b.unplaced := by
  refine ext_fields ?_ ?_ ?_
  · rw [className_unplaced, className_unplaced, hclass]
  · rw [pos_unplaced, pos_unplaced]
  · rw [attributes_eq, attributes_eq] at hattributes
    rw [children_eq, children_eq] at hbelow
    rw [fields_unplaced, fields_unplaced]
    exact (alike_fields hclass).unplaced_eq hattributes hbelow

theorem forall₂_mem_right {α β : Type} {R : α → β → Prop} {xs : List α} {ys : List β} (h : List.Forall₂ R xs ys) :
    ∀ y ∈ ys, ∃ x, R x y := by
  induction h with
  | nil => exact List.forall_mem_nil _
  | cons hxy _ ih => exact List.forall_mem_cons.mpr ⟨⟨_, hxy⟩, ih⟩

theorem map_eq_of_forall₂ {α β γ : Type} {R S : α → β → Prop} {f : α → γ} {xs ys : List α} {zs : List β}
    (hf : ∀ x y z, R x z → S y z → f x = f y) (hx : List.Forall₂ R xs zs) (hy : List.Forall₂ S ys zs) :
    xs.map f = ys.map f := by
  induction hx generalizing ys with
  | nil =>
    cases hy
    rfl
  | cons hxz _ ih =>
    cases hy with
    | cons hyz hys => rw [List.map_cons, List.map_cons, hf _ _ _ hxz hyz, ih hys]

/-- What is printed of a tree ends where it ends, and shows the tree but for its places. -/
theorem displayWithin_append_inj {depth depth' : Nat} {level : Int} {a b : Node} {t u : String} {r r' : List Char}
    (ha : displayWithin depth level a = some t) (hb : displayWithin depth' level b = some u)
    (h : t.toList ++ r = u.toList ++ r') : t = u ∧ a.unplaced = b.unplaced := by
  induction depth generalizing depth' level a b t u r r' with
  | zero => cases ha
  | succ depth ih =>
    cases depth' with
    | zero => cases hb
    | succ depth' =>
      obtain ⟨ts, hts, rfl⟩ := displayWithin_eq_some ha
      obtain ⟨us, hus, rfl⟩ := displayWithin_eq_some hb
      -- The induction hypothesis holds with anything behind, so the texts below need no separator of their own.
      have hdiscerned : ∀ t ∈ ts, ∀ u ∈ us, Discerned [',', '\n'] t.toList u.toList := by
        intro t ht u hu s s' _ _ h
        obtain ⟨c, hc⟩ := forall₂_mem_right hts t ht
        obtain ⟨d, hd⟩ := forall₂_mem_right hus u hu
        rw [(ih hc hd h).1]
      obtain ⟨hclass, hattributes, rfl⟩ := frame_append_inj hdiscerned h
      have hchild : ∀ c d t, displayWithin depth (level + 1) c = some t →
          displayWithin depth' (level + 1) d = some t → c.unplaced = d.unplaced := by
        intro c d t hc hd
        exact (ih hc hd (Eq.refl (t.toList ++ []))).2
      have hbelow : a.children.map unplaced = b.children.map unplaced := map_eq_of_forall₂ hchild hts hus
      refine ⟨?_, unplaced_eq_of_parts hclass hattributes hbelow⟩
      unfold frame
      rw [hclass, hattributes]

/-! ## Places -/

theorem attributes_unplaced (n : Node) : n.unplaced.attributes = n.attributes := by
  rw [attributes_eq, attributes_eq, fields_unplaced, List.filterMap_map]
  refine congrArg (List.filterMap · n.fields) (funext fun ⟨x, f⟩ => ?_)
  rw [Function.comp_apply, Field.shown?, Field.shown?, Field.attribute?_unplaced]

theorem children_unplaced (n : Node) : n.unplaced.children = n.children.map unplaced := by
  rw [children_eq, children_eq, fields_unplaced, List.flatMap_map, List.map_flatMap]
  exact congrArg (n.fields.flatMap ·) (funext fun e => e.2.held_unplaced)

/-- No place is printed. -/
theorem displayWithin_unplaced (depth : Nat) (level : Int) (n : Node) :
    displayWithin depth level n.unplaced = displayWithin depth level n := by
  induction depth generalizing level n with
  | zero => rfl
  | succ depth ih =>
    have hframe : ∀ below, frame level n.unplaced below = frame level n below := by
      intro below
      rw [frame, frame, className_unplaced, attributes_unplaced]
    have hbelow : n.unplaced.children.mapM (displayWithin depth (level + 1)) =
        n.children.mapM (displayWithin depth (level + 1)) := by
      rw [children_unplaced, List.mapM_map]
      exact congrArg (n.children.mapM ·) (funext (ih (level + 1)))
    rw [displayWithin, displayWithin, hbelow]
    simp only [hframe]

/-! ## Trees that are printed -/

theorem mapM_isSome {α β : Type} {f : α → Option β} {xs : List α} :
    (xs.mapM f).isSome = true ↔ ∀ x ∈ xs, (f x).isSome = true := by
  induction xs with
  | nil => simp
  | cons x xs ih =>
    rw [List.mapM_cons, List.forall_mem_cons, ← ih]
    cases f x <;> cases xs.mapM f <;> simp

theorem displayWithin_succ_isSome {depth : Nat} {level : Int} {n : Node} :
    (displayWithin (depth + 1) level n).isSome = true ↔
      ∀ c ∈ n.children, (displayWithin depth (level + 1) c).isSome = true := by
  rw [← mapM_isSome, displayWithin]
  cases n.children.mapM (displayWithin depth (level + 1)) <;> simp

theorem displayWithin_pattern_isSome {p : Node} (hp : IsPattern p) {depth : Nat} {level : Int} (hdepth : 0 < depth) :
    (displayWithin depth level p).isSome = true := by
  obtain ⟨depth, rfl⟩ := Nat.exists_eq_add_of_lt hdepth
  rw [Nat.zero_add]
  refine displayWithin_succ_isSome.mpr ?_
  cases hp <;> exact List.forall_mem_nil _

/-- An expression is printed unless it is higher than the depth. -/
theorem displayWithin_expression_isSome {e : Node} (he : IsExpression e) {depth : Nat} {level : Int} :
    (displayWithin depth level e).isSome = true ↔ e.height ≤ depth := by
  induction depth generalizing e level with
  | zero => exact iff_of_false Bool.false_ne_true (Nat.not_le_of_lt he.height_pos)
  | succ depth ih =>
    rw [displayWithin_succ_isSome]
    cases he with
    | intLit | floatLit | stringLit | charLit | ident => simp [children, fields, height]
    | letIn pos x hv _ hb => simp [children, fields, height, ih hv, ih hb]
    | cond pos hc ht he => simp [children, fields, height, ih hc, ih ht, ih he]
    | lambda pos x hb => simp [children, fields, height, ih hb]
    | apply pos hf ha => simp [children, fields, height, ih hf, ih ha]
    | binary pos o hl hr _ => simp [children, fields, height, ih hl, ih hr]
    | unary pos o he => simp [children, fields, height, ih he]
    | @matching pos s cs hs _ hp hbodies =>
      have hchildren : (matching pos s cs).children = s :: cs.flatMap fun c => [c.1, c.2] := by simp [children, fields]
      rw [hchildren, List.forall_mem_cons, ih hs, height, Nat.add_le_add_iff_right, Nat.max_le, casesHeight_le_iff]
      refine and_congr_right fun hscrutinee => ?_
      have hdepth : 0 < depth := Nat.lt_of_lt_of_le hs.height_pos hscrutinee
      rw [List.forall_mem_flatMap]
      refine forall₂_congr fun c hc => ?_
      rw [List.forall_mem_cons, List.forall_mem_singleton, ih (hbodies c hc)]
      exact and_iff_right (displayWithin_pattern_isSome (hp c hc) hdepth)

theorem displayWithin_declaration_isSome {d : Node} (hd : IsDeclaration d) {depth : Nat} {level : Int} :
    (displayWithin (depth + 1) level d).isSome = true ↔ d.height ≤ depth := by
  rw [displayWithin_succ_isSome]
  cases hd with
  | letDecl pos x hv => simp [children, fields, height, displayWithin_expression_isSome hv]
  | funDecl pos x p ps r hb => simp [children, fields, height, displayWithin_expression_isSome hb]
  | exprStmt pos he => simp [children, fields, height, displayWithin_expression_isSome he]

/-- A program that was read is printed unless a declaration is too high. A tree is printed the same at the same
level if it is the same program but for its places, and only then. -/
theorem display_determines {source : String} {p : Program} (hp : (parse source).program = some p) (level : Int) :
    ((p.toNode.display? level).isSome = true ↔ ∀ d ∈ p.body, d.height + 2 ≤ displayDepth) ∧
      ∀ text, p.toNode.display? level = some text →
        ∀ n : Node, n.display? level = some text ↔ n.unplaced = p.toNode.unplaced := by
  constructor
  · have hdepth : displayDepth = 983 + 1 + 1 := rfl
    rw [display?, hdepth, displayWithin_succ_isSome]
    have hchildren : p.toNode.children = p.body := by simp [Program.toNode, children, fields]
    rw [hchildren]
    refine forall₂_congr fun d hd => ?_
    rw [displayWithin_declaration_isSome (parse_isDeclaration hp d hd), Nat.add_le_add_iff_right (n := 2)]
  · intro text htext n
    constructor
    · intro hn
      exact (displayWithin_append_inj hn htext (Eq.refl (text.toList ++ []))).2
    · intro hn
      rw [display?, ← displayWithin_unplaced, hn, displayWithin_unplaced]
      exact htext

/-- A program with a name that looks like a part of a printed tree. -/
def misleading : String := "match \x60', nodes=[\x60 with | _ -> 1.5;;"

/-- The same program further down. -/
def misleadingBelow : String := "\nmatch \x60', nodes=[\x60 with\n| _ -> (1.50);;"

/-- The programs are read at different places and printed alike. -/
theorem display_determines_misleading :
    ∃ p q text, (parse misleading).program = some p ∧ (parse misleadingBelow).program = some q ∧ p.pos ≠ q.pos ∧
      p.toNode.display? 1 = some text ∧ q.toNode.display? 1 = some text ∧ q.toNode.unplaced = p.toNode.unplaced := by
  have hshown : ((parse misleading).program.bind fun p => p.toNode.display? 1).isSome = true := by decide +kernel
  have hsame : ((parse misleading).program.bind fun p => p.toNode.display? 1) =
      (parse misleadingBelow).program.bind fun q => q.toNode.display? 1 := by decide +kernel
  have hplaces : (parse misleading).program.map Program.pos ≠ (parse misleadingBelow).program.map Program.pos := by
    decide +kernel
  obtain ⟨text, htext⟩ := Option.isSome_iff_exists.mp hshown
  obtain ⟨p, hp, hp'⟩ := Option.bind_eq_some_iff.mp htext
  obtain ⟨q, hq, hq'⟩ := Option.bind_eq_some_iff.mp (hsame.symm.trans htext)
  refine ⟨p, q, text, hp, hq, fun h => hplaces ?_, hp', hq', ((display_determines hp 1).2 text hp' q.toNode).mp hq'⟩
  rw [hp, hq, Option.map_some, Option.map_some, h]

end Node

end Camlet
