import Utilpp.Lib.Json.Token

/-!
# Reading and writing JSON trees

`Tree σ ν` is a JSON value over a type of strings and a type of numbers: the syntax tree of a
text has its string units and number texts there (`Syntax`), a document has byte strings and
machine numbers. `readValue` is the recursive-descent reader of the grammar; `render` is the
writer. A text stands for a value wherever it `Reads` as one: written
values do (`reads_render`), and so does every JSON text (`reads_of_parse`).
-/

namespace Utilpp.Lib.Json

/-- A JSON value with strings in `σ` and numbers in `ν`. Members of an object stay in order and
may repeat a key. -/
inductive Tree (σ ν : Type) where
  | null
  | bool (value : Bool)
  | num (value : ν)
  | str (value : σ)
  | arr (items : List (Tree σ ν))
  | obj (members : List (σ × Tree σ ν))

/-- The tree of a text: strings and numbers as they are spelled. -/
abbrev Syntax := Tree (List StrUnit) (List UInt8)

variable {σ ν σ' ν' : Type}

namespace Tree

/-- Induction over trees, with the hypothesis for every item and every member. -/
theorem induct {P : Tree σ ν → Prop} (null : P .null) (bool : ∀ b, P (.bool b))
    (num : ∀ x, P (.num x)) (str : ∀ s, P (.str s))
    (arr : ∀ items, (∀ v ∈ items, P v) → P (.arr items))
    (obj : ∀ members, (∀ m ∈ members, P m.2) → P (.obj members)) (v : Tree σ ν) : P v := by
  refine @Tree.rec σ ν P (fun items => ∀ v ∈ items, P v) (fun members => ∀ m ∈ members, P m.2)
    (fun m => P m.2) null bool num str arr obj ?_ ?_ ?_ ?_ ?_ v
  · simp
  · intro v items hv hitems w hw
    rcases List.mem_cons.mp hw with rfl | hw
    · exact hv
    · exact hitems w hw
  · simp
  · intro m members hm hmembers w hw
    rcases List.mem_cons.mp hw with rfl | hw
    · exact hm
    · exact hmembers w hw
  · intro k v hv
    exact hv

mutual

/-- The tree with every string and every number replaced. -/
def map (f : σ → σ') (g : ν → ν') : Tree σ ν → Tree σ' ν'
  | .null => .null
  | .bool b => .bool b
  | .num x => .num (g x)
  | .str s => .str (f s)
  | .arr items => .arr (mapItems f g items)
  | .obj members => .obj (mapMembers f g members)

def mapItems (f : σ → σ') (g : ν → ν') : List (Tree σ ν) → List (Tree σ' ν')
  | [] => []
  | v :: items => map f g v :: mapItems f g items

def mapMembers (f : σ → σ') (g : ν → ν') : List (σ × Tree σ ν) → List (σ' × Tree σ' ν')
  | [] => []
  | (k, v) :: members => (f k, map f g v) :: mapMembers f g members

end

mutual

/-- The tree with every string and every number converted, if they all convert. -/
def traverse (f : σ → Option σ') (g : ν → Option ν') : Tree σ ν → Option (Tree σ' ν')
  | .null => some .null
  | .bool b => some (.bool b)
  | .num x => (g x).map .num
  | .str s => (f s).map .str
  | .arr items => (traverseItems f g items).map .arr
  | .obj members => (traverseMembers f g members).map .obj

def traverseItems (f : σ → Option σ') (g : ν → Option ν') :
    List (Tree σ ν) → Option (List (Tree σ' ν'))
  | [] => some []
  | v :: items => do
      let w ← traverse f g v
      let ws ← traverseItems f g items
      some (w :: ws)

def traverseMembers (f : σ → Option σ') (g : ν → Option ν') :
    List (σ × Tree σ ν) → Option (List (σ' × Tree σ' ν'))
  | [] => some []
  | (k, v) :: members => do
      let l ← f k
      let w ← traverse f g v
      let ws ← traverseMembers f g members
      some ((l, w) :: ws)

end

theorem mapItems_eq (f : σ → σ') (g : ν → ν') (items : List (Tree σ ν)) :
    mapItems f g items = items.map (map f g) := by
  induction items with
  | nil => rfl
  | cons v items ih => simp [mapItems, ih]

theorem mapMembers_eq (f : σ → σ') (g : ν → ν') (members : List (σ × Tree σ ν)) :
    mapMembers f g members = members.map fun m => (f m.1, m.2.map f g) := by
  induction members with
  | nil => rfl
  | cons m members ih => simp [mapMembers, ih]

theorem traverseMembers_append (f : σ → Option σ') (g : ν → Option ν')
    (members more : List (σ × Tree σ ν)) :
    traverseMembers f g (members ++ more) =
      (traverseMembers f g members).bind fun ws =>
        (traverseMembers f g more).map (ws ++ ·) := by
  induction members with
  | nil => simp [traverseMembers]
  | cons m members ih =>
      cases hk : f m.1 with
      | none => simp [traverseMembers, hk]
      | some k =>
          cases hv : m.2.traverse f g with
          | none => simp [traverseMembers, hk, hv]
          | some v =>
              cases hms : traverseMembers f g members with
              | none => simp [traverseMembers, hk, hv, ih, hms]
              | some ws =>
                  cases hmore : traverseMembers f g more <;>
                    simp [traverseMembers, hk, hv, ih, hms, hmore]

/-- Conversions that undo a replacement give the tree back. -/
theorem traverse_map {a : σ → σ'} {b : ν → ν'} {f : σ' → Option σ} {g : ν' → Option ν}
    (hf : ∀ s, f (a s) = some s) (hg : ∀ x, g (b x) = some x) (v : Tree σ ν) :
    (v.map a b).traverse f g = some v := by
  induction v using induct with
  | null => rfl
  | bool b => rfl
  | num x => simp [map, traverse, hg]
  | str s => simp [map, traverse, hf]
  | arr items ih =>
      have hitems : traverseItems f g (mapItems a b items) = some items := by
        induction items with
        | nil => rfl
        | cons v items ihs =>
            simp [mapItems, traverseItems, ih v (by simp),
              ihs fun w hw => ih w (List.mem_cons_of_mem v hw)]
      simp [map, traverse, hitems]
  | obj members ih =>
      have hmembers : traverseMembers f g (mapMembers a b members) = some members := by
        induction members with
        | nil => rfl
        | cons m members ihs =>
            simp [mapMembers, traverseMembers, hf, ih m (by simp),
              ihs fun w hw => ih w (List.mem_cons_of_mem m hw)]
      simp [map, traverse, hmembers]

end Tree

/-! ## The writer -/

/-- Texts with commas between them. -/
def commas : List (List UInt8) → List UInt8
  | [] => []
  | [text] => text
  | text :: next :: texts => text ++ 44 :: commas (next :: texts)

theorem commas_cons (text next : List UInt8) (texts : List (List UInt8)) :
    commas (text :: next :: texts) = text ++ 44 :: commas (next :: texts) := rfl

/-- A written string with its quotes. -/
def quoted (s : List UInt8) : List UInt8 := 34 :: (escape s ++ [34])

/-- A member of an object. -/
def memberText (key : List UInt8) (value : List UInt8) : List UInt8 := quoted key ++ 58 :: value

mutual

/-- The text a writer produces for a tree. `number` prints the numbers; `extra` gives the texts
of the members that the end of an object adds, by the number of values open there. -/
def render (number : ν → List UInt8) (extra : Nat → List (List UInt8)) (depth : Nat) :
    Tree (List UInt8) ν → List UInt8
  | .null => [110, 117, 108, 108]
  | .bool true => [116, 114, 117, 101]
  | .bool false => [102, 97, 108, 115, 101]
  | .num x => number x
  | .str s => quoted s
  | .arr items => 91 :: (commas (renderItems number extra (depth + 1) items) ++ [93])
  | .obj members =>
      123 :: (commas (renderMembers number extra (depth + 1) members ++ extra (depth + 1)) ++ [125])

def renderItems (number : ν → List UInt8) (extra : Nat → List (List UInt8)) (depth : Nat) :
    List (Tree (List UInt8) ν) → List (List UInt8)
  | [] => []
  | v :: items => render number extra depth v :: renderItems number extra depth items

def renderMembers (number : ν → List UInt8) (extra : Nat → List (List UInt8)) (depth : Nat) :
    List (List UInt8 × Tree (List UInt8) ν) → List (List UInt8)
  | [] => []
  | (k, v) :: members =>
      memberText k (render number extra depth v) :: renderMembers number extra depth members

end

/-! ## The reader -/

/-- The rest of a text after an expected one. -/
def expect (text : List UInt8) : List UInt8 → Option (List UInt8) := fun input =>
  if text.isPrefixOf input then some (input.drop text.length) else none

/-- Values separated by commas up to the closing byte, with at least one value. -/
def readSeq {α : Type} (item : Reader α) (close : UInt8) : Nat → Reader (List α)
  | 0 => fun _ => none
  | fuel + 1 => fun text => do
      let (x, rest) ← item text
      match skipWs rest with
      | [] => none
      | b :: rest =>
          if b = 44 then (readSeq item close fuel rest).map fun read => (x :: read.1, read.2)
          else if b = close then some ([x], rest)
          else none

/-- Values separated by commas up to the closing byte; there may be none. -/
def readList {α : Type} (item : Reader α) (close : UInt8) (fuel : Nat) : Reader (List α) :=
  fun text =>
    match skipWs text with
    | [] => none
    | b :: rest => if b = close then some ([], rest) else readSeq item close fuel (b :: rest)

/-- A member of an object: a string, a colon and a value. -/
def readMember (value : Reader Syntax) : Reader (List StrUnit × Syntax) := fun text =>
  match skipWs text with
  | [] => none
  | b :: rest =>
      if b = 34 then do
        let (key, rest) ← scanString rest
        match skipWs rest with
        | [] => none
        | c :: rest => if c = 58 then (value rest).map fun read => ((key, read.1), read.2) else none
      else none

/-- The first value of a text, after white space. The fuel bounds the nesting and the number of
values in a row. -/
def readValue : Nat → Reader Syntax
  | 0 => fun _ => none
  | fuel + 1 => fun text =>
      match skipWs text with
      | [] => none
      | b :: rest =>
          if b = 110 then (expect [117, 108, 108] rest).map fun rest => (.null, rest)
          else if b = 116 then (expect [114, 117, 101] rest).map fun rest => (.bool true, rest)
          else if b = 102 then
            (expect [97, 108, 115, 101] rest).map fun rest => (.bool false, rest)
          else if b = 34 then (scanString rest).map fun read => (.str read.1, read.2)
          else if b = 91 then
            (readList (readValue fuel) 93 fuel rest).map fun read => (.arr read.1, read.2)
          else if b = 123 then
            (readList (readMember (readValue fuel)) 125 fuel rest).map fun read =>
              (.obj read.1, read.2)
          else (scanNumber (b :: rest)).map fun read => (.num read.1, read.2)

/-- The tree of a JSON text: one value with white space around it. -/
def parse (text : List UInt8) : Option Syntax := do
  let (v, rest) ← readValue (text.length + 1) text
  if skipWs rest = [] then some v else none

/-! ## Reading inside a larger text -/

theorem readValue_nil {text : List UInt8} (h : skipWs text = []) (fuel : Nat) :
    readValue (fuel + 1) text = none := by
  simp only [readValue, h]

/-- A value is read by its first byte. -/
theorem readValue_cons {text rest : List UInt8} {b : UInt8} (h : skipWs text = b :: rest)
    (fuel : Nat) : readValue (fuel + 1) text =
      if b = 110 then (expect [117, 108, 108] rest).map fun rest => (.null, rest)
      else if b = 116 then (expect [114, 117, 101] rest).map fun rest => (.bool true, rest)
      else if b = 102 then
        (expect [97, 108, 115, 101] rest).map fun rest => (.bool false, rest)
      else if b = 34 then (scanString rest).map fun read => (.str read.1, read.2)
      else if b = 91 then
        (readList (readValue fuel) 93 fuel rest).map fun read => (.arr read.1, read.2)
      else if b = 123 then
        (readList (readMember (readValue fuel)) 125 fuel rest).map fun read =>
          (.obj read.1, read.2)
      else (scanNumber (b :: rest)).map fun read => (.num read.1, read.2) := by
  simp only [readValue, h]

/-- How a nonempty sequence was read: its first value, then a comma and the rest of the
sequence, or the closing byte. -/
theorem readSeq_eq_some {α : Type} {item : Reader α} {close : UInt8} (hclose : close ≠ 44)
    {fuel : Nat} {text rest : List UInt8} {xs : List α} :
    readSeq item close (fuel + 1) text = some (xs, rest) ↔
      ∃ x r, item text = some (x, r) ∧
        ((∃ r' ys, skipWs r = 44 :: r' ∧ readSeq item close fuel r' = some (ys, rest) ∧
            xs = x :: ys) ∨
          (skipWs r = close :: rest ∧ xs = [x])) := by
  simp only [readSeq, Option.bind_eq_bind, Option.bind_eq_some_iff, Prod.exists]
  constructor
  · rintro ⟨x, r, hitem, h⟩
    refine ⟨x, r, hitem, ?_⟩
    split at h
    · cases h
    · rename_i b r' hskip
      split_ifs at h with hcomma hend
      · obtain ⟨⟨ys, r''⟩, hseq, heq⟩ := Option.map_eq_some_iff.mp h
        cases heq
        exact .inl ⟨r', ys, by rw [hskip, hcomma], hseq, rfl⟩
      · cases h
        exact .inr ⟨by rw [hskip, hend], rfl⟩
  · rintro ⟨x, r, hitem, ⟨r', ys, hskip, hseq, rfl⟩ | ⟨hskip, rfl⟩⟩
    · exact ⟨x, r, hitem, by simp [hskip, hseq]⟩
    · exact ⟨x, r, hitem, by simp [hskip, hclose]⟩

theorem readList_eq_some {α : Type} {item : Reader α} {close : UInt8} {fuel : Nat}
    {text rest : List UInt8} {xs : List α} :
    readList item close fuel text = some (xs, rest) ↔
      (skipWs text = close :: rest ∧ xs = []) ∨
        ∃ b r, skipWs text = b :: r ∧ b ≠ close ∧
          readSeq item close fuel (b :: r) = some (xs, rest) := by
  simp only [readList]
  split
  · rename_i hskip
    simp [hskip]
  · rename_i b r hskip
    by_cases hb : b = close
    · subst hb
      simp [hskip, and_comm, eq_comm]
    · simp [hskip, hb]

theorem readMember_eq_some {value : Reader Syntax} {text rest : List UInt8}
    {m : List StrUnit × Syntax} :
    readMember value text = some (m, rest) ↔
      ∃ r r' r'', skipWs text = 34 :: r ∧ scanString r = some (m.1, r') ∧
        skipWs r' = 58 :: r'' ∧ value r'' = some (m.2, rest) := by
  simp only [readMember]
  split
  · rename_i hskip
    simp [hskip]
  · rename_i b r hskip
    by_cases hb : b = 34
    · subst hb
      simp only [if_true, Option.bind_eq_bind, Option.bind_eq_some_iff, Prod.exists]
      constructor
      · rintro ⟨key, r', hscan, h⟩
        split at h
        · cases h
        · rename_i c r'' hskip'
          split_ifs at h with hc
          obtain ⟨⟨v, r₃⟩, hv, heq⟩ := Option.map_eq_some_iff.mp h
          cases heq
          exact ⟨r, r', r'', hskip, hscan, by rw [hskip', hc], hv⟩
      · rintro ⟨r₁, r', r'', hr, hscan, hskip', hv⟩
        rw [hskip] at hr
        cases hr
        exact ⟨m.1, r', hscan, by simp [hskip', hv]⟩
    · simp [hskip, hb]

theorem skipWs_append_of_eq {text r tail : List UInt8} {b : UInt8} (htail : Ends tail)
    (h : skipWs text = b :: r) : skipWs (text ++ tail) = b :: (r ++ tail) := by
  rw [skipWs_append htail, h, List.cons_append]

theorem readSeq_extends {α : Type} {item item' : Reader α} {close : UInt8} (hclose : close ≠ 44)
    (hitem : Extends item item') {fuel fuel' : Nat} (hfuel : fuel ≤ fuel') :
    Extends (readSeq item close fuel) (readSeq item' close fuel') := by
  induction fuel generalizing fuel' with
  | zero =>
      intro text xs rest h
      cases h
  | succ fuel ih =>
      intro text xs rest h tail htail
      obtain ⟨fuel', rfl⟩ : ∃ n, fuel' = n + 1 := ⟨fuel' - 1, by omega⟩
      obtain ⟨x, r, hx, hrest⟩ := (readSeq_eq_some hclose).mp h
      refine (readSeq_eq_some hclose).mpr ⟨x, r ++ tail, hitem _ _ _ hx tail htail, ?_⟩
      rcases hrest with ⟨r', ys, hskip, hseq, rfl⟩ | ⟨hskip, rfl⟩
      · exact .inl ⟨r' ++ tail, ys, skipWs_append_of_eq htail hskip,
          ih (by omega) _ _ _ hseq tail htail, rfl⟩
      · exact .inr ⟨skipWs_append_of_eq htail hskip, rfl⟩

theorem readList_extends {α : Type} {item item' : Reader α} {close : UInt8} (hclose : close ≠ 44)
    (hitem : Extends item item') {fuel fuel' : Nat} (hfuel : fuel ≤ fuel') :
    Extends (readList item close fuel) (readList item' close fuel') := by
  intro text xs rest h tail htail
  refine readList_eq_some.mpr ?_
  rcases readList_eq_some.mp h with ⟨hskip, rfl⟩ | ⟨b, r, hskip, hb, hseq⟩
  · exact .inl ⟨skipWs_append_of_eq htail hskip, rfl⟩
  · exact .inr ⟨b, r ++ tail, skipWs_append_of_eq htail hskip, hb,
      readSeq_extends hclose hitem hfuel _ _ _ hseq tail htail⟩

theorem readMember_extends {value value' : Reader Syntax} (hvalue : Extends value value') :
    Extends (readMember value) (readMember value') := by
  intro text m rest h tail htail
  obtain ⟨r, r', r'', hskip, hscan, hcolon, hv⟩ := readMember_eq_some.mp h
  exact readMember_eq_some.mpr ⟨r ++ tail, r' ++ tail, r'' ++ tail,
    skipWs_append_of_eq htail hskip, scanString_append hscan (tail),
    skipWs_append_of_eq htail hcolon, hvalue _ _ _ hv tail htail⟩

theorem expect_append {text input rest : List UInt8} (h : expect text input = some rest)
    (tail : List UInt8) : expect text (input ++ tail) = some (rest ++ tail) := by
  simp only [expect] at h ⊢
  split_ifs at h with hpre
  obtain ⟨r, rfl⟩ := List.isPrefixOf_iff_prefix.mp hpre
  cases h
  simp [List.append_assoc]

/-- Reading a value does not depend on what follows once its tokens have ended, and more fuel
reads the same value. -/
theorem readValue_extends {fuel fuel' : Nat} (hfuel : fuel ≤ fuel') :
    Extends (readValue fuel) (readValue fuel') := by
  induction fuel generalizing fuel' with
  | zero =>
      intro text x rest h
      cases h
  | succ fuel ih =>
      intro text x rest h tail htail
      obtain ⟨fuel', rfl⟩ : ∃ n, fuel' = n + 1 := ⟨fuel' - 1, by omega⟩
      have hlt : fuel ≤ fuel' := by omega
      cases hskip : skipWs text with
      | nil =>
          rw [readValue_nil hskip] at h
          cases h
      | cons b r =>
          rw [readValue_cons hskip] at h
          rw [readValue_cons (skipWs_append_of_eq htail hskip)]
          split_ifs at h ⊢
          all_goals
            obtain ⟨read, hread, heq⟩ := Option.map_eq_some_iff.mp h
            cases heq
          · rw [expect_append hread]
            rfl
          · rw [expect_append hread]
            rfl
          · rw [expect_append hread]
            rfl
          · rw [scanString_append hread]
            rfl
          · rw [readList_extends (by decide) (ih hlt) hlt _ _ _ hread tail htail]
            rfl
          · rw [readList_extends (by decide) (readMember_extends (ih hlt)) hlt _ _ _ hread tail
              htail]
            rfl
          · have hnum := extends_scanNumber _ _ _ hread tail htail
            rw [List.cons_append] at hnum
            rw [hnum]
            rfl

/-! ## Texts that read as a value -/

/-- Before anything that ends its tokens the text reads as `x`, up to white space after it. -/
def Reads {α : Type} (p : Reader α) (text : List UInt8) (x : α) : Prop :=
  ∀ tail, Ends tail → ∃ rest, p (text ++ tail) = some (x, rest) ∧ skipWs rest = tail

/-- The first byte of the text is neither white space nor `close`. -/
def Starts (close : UInt8) (text : List UInt8) : Prop :=
  ∃ b rest, text = b :: rest ∧ isWs b = false ∧ b ≠ close

theorem isDelimiter_comma : IsDelimiter 44 := ⟨rfl, rfl⟩

theorem isDelimiter_bracket : IsDelimiter 93 := ⟨rfl, rfl⟩

theorem isDelimiter_brace : IsDelimiter 125 := ⟨rfl, rfl⟩

/-- A reader that stops right at the end of the text reads it. -/
theorem Reads.of_eq {α : Type} {p : Reader α} {text : List UInt8} {x : α}
    (h : ∀ tail, Ends tail → p (text ++ tail) = some (x, tail)) : Reads p text x :=
  fun tail htail => ⟨tail, h tail htail, skipWs_of_ends htail⟩

/-- A JSON text reads as its tree inside a larger text. -/
theorem reads_of_parse {text : List UInt8} {v : Syntax} (h : parse text = some v) {fuel : Nat}
    (hfuel : text.length + 1 ≤ fuel) : Reads (readValue fuel) text v := by
  simp only [parse, Option.bind_eq_bind, Option.bind_eq_some_iff, Prod.exists] at h
  obtain ⟨w, rest, hread, hend⟩ := h
  split_ifs at hend with hws
  cases hend
  intro tail htail
  refine ⟨rest ++ tail, readValue_extends hfuel _ _ _ hread tail htail, ?_⟩
  rw [skipWs_append htail, hws, List.nil_append]

/-- A text that reads as a value is a JSON text of it. -/
theorem parse_of_reads {text : List UInt8} {v : Syntax}
    (h : Reads (readValue (text.length + 1)) text v) : parse text = some v := by
  obtain ⟨rest, hread, hskip⟩ := h [] ends_nil
  rw [List.append_nil] at hread
  simp [parse, hread, hskip]

theorem length_le_commas {texts : List (List UInt8)} {text : List UInt8} (h : text ∈ texts) :
    text.length ≤ (commas texts).length := by
  induction texts with
  | nil => cases h
  | cons t texts ih =>
      cases texts with
      | nil => exact (congrArg List.length (List.mem_singleton.mp h)).le
      | cons next texts =>
          rw [commas_cons, List.length_append, List.length_cons]
          rcases List.mem_cons.mp h with rfl | h
          · exact Nat.le_add_right ..
          · have := ih h
            omega

theorem count_le_commas (texts : List (List UInt8)) :
    texts.length ≤ (commas texts).length + 1 := by
  induction texts with
  | nil => exact Nat.zero_le _
  | cons t texts ih =>
      cases texts with
      | nil => exact Nat.le_add_left ..
      | cons next texts =>
          rw [commas_cons]
          simp only [List.length_cons, List.length_append] at ih ⊢
          omega

theorem zero_not_mem_commas {texts : List (List UInt8)}
    (h : ∀ text ∈ texts, (0 : UInt8) ∉ text) : (0 : UInt8) ∉ commas texts := by
  induction texts with
  | nil => exact List.not_mem_nil
  | cons t texts ih =>
      cases texts with
      | nil => exact h t List.mem_cons_self
      | cons next texts =>
          have hrest := ih fun text htext => h text (List.mem_cons_of_mem t htext)
          simp [commas_cons, h t List.mem_cons_self, hrest]

section Sequences

variable {α β : Type} {item : Reader α} {text : β → List UInt8} {value : β → α}

/-- Texts that read as values read as a sequence when commas stand between them. -/
theorem readSeq_commas {close : UInt8} (hclose : close ≠ 44) (hdelim : IsDelimiter close)
    {elements : List β} (hreads : ∀ m ∈ elements, Reads item (text m) (value m))
    (hne : elements ≠ []) {fuel : Nat} (hfuel : elements.length ≤ fuel) (tail : List UInt8) :
    readSeq item close fuel (commas (elements.map text) ++ close :: tail) =
      some (elements.map value, tail) := by
  induction elements generalizing fuel with
  | nil => exact absurd rfl hne
  | cons m elements ih =>
      obtain ⟨fuel, rfl⟩ : ∃ n, fuel = n + 1 := ⟨fuel - 1, by simp at hfuel; omega⟩
      rw [readSeq_eq_some hclose]
      cases elements with
      | nil =>
          obtain ⟨rest, hread, hskip⟩ := hreads m (by simp) (close :: tail) (ends_cons hdelim tail)
          exact ⟨value m, rest, hread, .inr ⟨hskip, rfl⟩⟩
      | cons next elements =>
          obtain ⟨rest, hread, hskip⟩ := hreads m (by simp)
            (44 :: (commas ((next :: elements).map text) ++ close :: tail))
            (ends_cons isDelimiter_comma _)
          refine ⟨value m, rest, ?_, .inl ⟨_, _, hskip, ih (fun w hw => hreads w (by simp [hw]))
            (by simp) (by simpa using hfuel), rfl⟩⟩
          simpa [commas_cons] using hread

theorem starts_commas {close : UInt8} {texts : List (List UInt8)} (hne : texts ≠ [])
    (h : ∀ t ∈ texts, Starts close t) (tail : List UInt8) :
    ∃ b rest, commas texts ++ tail = b :: rest ∧ isWs b = false ∧ b ≠ close := by
  cases texts with
  | nil => exact absurd rfl hne
  | cons t texts =>
      obtain ⟨b, rest, rfl, hws, hb⟩ := h t List.mem_cons_self
      cases texts with
      | nil => exact ⟨b, rest ++ tail, rfl, hws, hb⟩
      | cons next texts => exact ⟨b, _, rfl, hws, hb⟩

/-- Texts that read as values read as a list when commas stand between them and the closing
byte after them. -/
theorem readList_commas {close : UInt8} (hclose : close ≠ 44) (hdelim : IsDelimiter close)
    {elements : List β} (hreads : ∀ m ∈ elements, Reads item (text m) (value m))
    (hstarts : ∀ m ∈ elements, Starts close (text m)) {fuel : Nat}
    (hfuel : elements.length ≤ fuel) (tail : List UInt8) :
    readList item close fuel (commas (elements.map text) ++ close :: tail) =
      some (elements.map value, tail) := by
  rw [readList_eq_some]
  by_cases hne : elements = []
  · subst hne
    exact .inl ⟨skipWs_cons hdelim.1 tail, rfl⟩
  · obtain ⟨b, rest, heq, hws, hb⟩ := @starts_commas close (elements.map text)
      (by simpa using hne) (by simpa using hstarts) (close :: tail)
    refine .inr ⟨b, rest, ?_, hb, ?_⟩
    · rw [heq, skipWs_cons hws]
    · rw [← heq]
      exact readSeq_commas hclose hdelim hreads hne hfuel tail

end Sequences

/-- A written string and a text that reads as a value make a member. -/
theorem reads_memberText {value : Reader Syntax} {text : List UInt8} {v : Syntax}
    (h : Reads value text v) (key : List UInt8) :
    Reads (readMember value) (memberText key text) (key.map unitOf, v) := by
  intro tail htail
  obtain ⟨rest, hread, hskip⟩ := h tail htail
  refine ⟨rest, readMember_eq_some.mpr ⟨escape key ++ 34 :: 58 :: (text ++ tail),
    58 :: (text ++ tail), text ++ tail, ?_, scanString_escape key _, ?_, hread⟩, hskip⟩
  · simp only [memberText, quoted, List.cons_append, List.append_assoc, List.nil_append]
    exact skipWs_cons rfl _
  · exact skipWs_cons rfl _

/-- Member texts in braces read as an object. -/
theorem readValue_object {β : Type} {text : β → List UInt8}
    {value : β → List StrUnit × Syntax} {elements : List β} {fuel : Nat}
    (hreads : ∀ m ∈ elements, Reads (readMember (readValue fuel)) (text m) (value m))
    (hstarts : ∀ m ∈ elements, Starts 125 (text m)) (hfuel : elements.length ≤ fuel)
    (tail : List UInt8) :
    readValue (fuel + 1) (123 :: (commas (elements.map text) ++ [125]) ++ tail) =
      some (.obj (elements.map value), tail) := by
  have hlist := readList_commas (by decide) isDelimiter_brace hreads hstarts hfuel tail
  have hskip : skipWs (123 :: (commas (elements.map text) ++ 125 :: tail)) =
      123 :: (commas (elements.map text) ++ 125 :: tail) := skipWs_cons rfl _
  simp only [List.cons_append, List.append_assoc, List.nil_append]
  rw [readValue_cons hskip, hlist]
  rfl

/-- Texts of values in brackets read as an array. -/
theorem readValue_array {β : Type} {text : β → List UInt8} {value : β → Syntax}
    {elements : List β} {fuel : Nat}
    (hreads : ∀ m ∈ elements, Reads (readValue fuel) (text m) (value m))
    (hstarts : ∀ m ∈ elements, Starts 93 (text m)) (hfuel : elements.length ≤ fuel)
    (tail : List UInt8) :
    readValue (fuel + 1) (91 :: (commas (elements.map text) ++ [93]) ++ tail) =
      some (.arr (elements.map value), tail) := by
  have hlist := readList_commas (by decide) isDelimiter_bracket hreads hstarts hfuel tail
  have hskip : skipWs (91 :: (commas (elements.map text) ++ 93 :: tail)) =
      91 :: (commas (elements.map text) ++ 93 :: tail) := skipWs_cons rfl _
  simp only [List.cons_append, List.append_assoc, List.nil_append]
  rw [readValue_cons hskip, hlist]
  rfl

theorem starts_memberText (key text : List UInt8) : Starts 125 (memberText key text) :=
  ⟨_, _, rfl, rfl, by decide⟩

theorem length_le_memberText (key text : List UInt8) :
    text.length ≤ (memberText key text).length := by
  simp only [memberText, List.length_append, List.length_cons]
  omega

/-- The text reads as a member whenever the fuel covers its length. -/
def IsMember (text : List UInt8) (m : List StrUnit × Syntax) : Prop :=
  Starts 125 text ∧ ∀ fuel, text.length ≤ fuel → Reads (readMember (readValue fuel)) text m

/-- A JSON text is the value of a member. -/
theorem isMember_of_parse {text : List UInt8} {v : Syntax} (h : parse text = some v)
    (key : List UInt8) : IsMember (memberText key text) (key.map unitOf, v) := by
  refine ⟨starts_memberText key text, fun fuel hfuel => ?_⟩
  simp only [memberText, List.length_append, List.length_cons] at hfuel
  exact reads_memberText (reads_of_parse h (by omega)) key

/-- Members with commas between them, in braces, are a JSON text of an object. -/
theorem parse_object {β : Type} {text : β → List UInt8} {value : β → List StrUnit × Syntax}
    {elements : List β} (h : ∀ m ∈ elements, IsMember (text m) (value m)) :
    parse (123 :: (commas (elements.map text) ++ [125])) = some (.obj (elements.map value)) := by
  have hcount := count_le_commas (elements.map text)
  rw [List.length_map] at hcount
  have hread := readValue_object
    (fun m hm => (h m hm).2 ((commas (elements.map text)).length + 2)
      (by have := length_le_commas (List.mem_map_of_mem (f := text) hm); omega))
    (fun m hm => (h m hm).1) (by omega) []
  rw [List.append_nil] at hread
  simp only [parse, List.length_cons, List.length_append, List.length_nil]
  rw [hread]
  rfl

/-! ## Members without a value -/

/-- A sequence whose last text does not read as a value does not read. -/
theorem readSeq_eq_none {α β : Type} {item : Reader α} {text : β → List UInt8} {value : β → α}
    {close : UInt8} {elements : List β} (hreads : ∀ m ∈ elements, Reads item (text m) (value m))
    {last tail : List UInt8} (hlast : item (last ++ tail) = none) (fuel : Nat) :
    readSeq item close fuel (commas (elements.map text ++ [last]) ++ tail) = none := by
  induction elements generalizing fuel with
  | nil =>
      cases fuel with
      | zero => rfl
      | succ fuel => simp [readSeq, commas, hlast]
  | cons m elements ih =>
      cases fuel with
      | zero => rfl
      | succ fuel =>
          have hrest := ih (fun w hw => hreads w (List.mem_cons_of_mem m hw)) fuel
          obtain ⟨rest, hread, hskip⟩ := hreads m (by simp)
            (44 :: (commas (elements.map text ++ [last]) ++ tail)) (ends_cons isDelimiter_comma _)
          have hsplit : commas ((m :: elements).map text ++ [last]) ++ tail =
              text m ++ 44 :: (commas (elements.map text ++ [last]) ++ tail) := by
            cases elements <;> simp [commas]
          rw [hsplit]
          simp [readSeq, hread, hskip, hrest]

/-- A closing brace is no value. -/
theorem readValue_brace (fuel : Nat) (tail : List UInt8) :
    readValue fuel (125 :: tail) = none := by
  cases fuel with
  | zero => rfl
  | succ fuel =>
      have hscan : scanNumber (125 :: tail) = none := rfl
      rw [readValue_cons (skipWs_cons rfl tail), hscan]
      rfl

theorem readMember_no_value (fuel : Nat) (key tail : List UInt8) :
    readMember (readValue fuel) (memberText key [] ++ 125 :: tail) = none := by
  rw [Option.eq_none_iff_forall_ne_some]
  intro read h
  obtain ⟨r, r', r'', hskip, hscan, hcolon, hv⟩ := readMember_eq_some.mp h
  have hkey : skipWs (memberText key [] ++ 125 :: tail) =
      34 :: (escape key ++ 34 :: 58 :: 125 :: tail) := by
    simp only [memberText, quoted, List.cons_append, List.append_assoc, List.nil_append]
    exact skipWs_cons rfl _
  rw [hkey] at hskip
  cases hskip
  rw [scanString_escape] at hscan
  simp only [Option.some.injEq, Prod.mk.injEq] at hscan
  obtain ⟨-, rfl⟩ := hscan
  rw [skipWs_cons rfl] at hcolon
  cases hcolon
  rw [readValue_brace] at hv
  cases hv

/-- An object whose last member has no value does not read. -/
theorem readValue_no_value {β : Type} {text : β → List UInt8}
    {value : β → List StrUnit × Syntax} {elements : List β} {fuel : Nat}
    (hreads : ∀ m ∈ elements, Reads (readMember (readValue fuel)) (text m) (value m))
    (hstarts : ∀ m ∈ elements, Starts 125 (text m)) (key : List UInt8) :
    readValue (fuel + 1)
      (123 :: (commas (elements.map text ++ [memberText key []]) ++ [125])) = none := by
  have hseq : readSeq (readMember (readValue fuel)) 125 fuel
      (commas (elements.map text ++ [memberText key []]) ++ [125]) = none :=
    readSeq_eq_none hreads (readMember_no_value fuel key []) fuel
  obtain ⟨b, rest, heq, hws, hb⟩ := @starts_commas 125 (elements.map text ++ [memberText key []])
    (by simp) (by simpa [or_imp, forall_and, starts_memberText] using hstarts) [125]
  have hlist : readList (readMember (readValue fuel)) 125 fuel
      (commas (elements.map text ++ [memberText key []]) ++ [125]) = none := by
    simp only [readList]
    rw [heq] at hseq ⊢
    simp [skipWs_cons hws, hb, hseq]
  have hskip : skipWs (123 :: (commas (elements.map text ++ [memberText key []]) ++ [125])) =
      123 :: (commas (elements.map text ++ [memberText key []]) ++ [125]) := skipWs_cons rfl _
  rw [readValue_cons hskip, hlist]
  rfl

/-! ## Written values -/

section Written

variable {number : ν → List UInt8}

theorem renderItems_eq (extra : Nat → List (List UInt8)) (depth : Nat)
    (items : List (Tree (List UInt8) ν)) :
    renderItems number extra depth items = items.map (render number extra depth) := by
  induction items with
  | nil => rfl
  | cons v items ih => simp [renderItems, ih]

theorem renderMembers_eq (extra : Nat → List (List UInt8)) (depth : Nat)
    (members : List (List UInt8 × Tree (List UInt8) ν)) :
    renderMembers number extra depth members =
      members.map fun m => memberText m.1 (render number extra depth m.2) := by
  induction members with
  | nil => rfl
  | cons m members ih => simp [renderMembers, ih]

/-- The writer that adds nothing at the end of an object. -/
def plain : Nat → List (List UInt8) := fun _ => []

/-- The syntax tree of a written value. -/
def spell (number : ν → List UInt8) (v : Tree (List UInt8) ν) : Syntax :=
  v.map (·.map unitOf) number

variable (hnumber : ∀ x, IsNumber (number x))
include hnumber

theorem starts_number {close : UInt8} (hclose : isNumberByte close = false) (x : ν) :
    Starts close (number x) := by
  obtain ⟨b, rest, heq, hb⟩ := (hnumber x).exists_cons
  refine ⟨b, rest, heq, ?_, ?_⟩
  · by_contra hws
    simp only [Bool.not_eq_false, isWs, Bool.or_eq_true, beq_iff_eq] at hws
    rcases hws with ((rfl | rfl) | rfl) | rfl <;> exact absurd hb (by decide)
  · rintro rfl
    simp [hb] at hclose

theorem starts_render (depth : Nat) (v : Tree (List UInt8) ν) :
    Starts 93 (render number plain depth v) := by
  cases v with
  | null => exact ⟨_, _, rfl, rfl, by decide⟩
  | bool b => cases b <;> exact ⟨_, _, rfl, rfl, by decide⟩
  | num x => exact starts_number hnumber rfl x
  | str s => exact ⟨_, _, rfl, rfl, by decide⟩
  | arr items => exact ⟨_, _, rfl, rfl, by decide⟩
  | obj members => exact ⟨_, _, rfl, rfl, by decide⟩

theorem readValue_number {fuel : Nat} (x : ν) {tail : List UInt8} (htail : Ends tail) :
    readValue (fuel + 1) (number x ++ tail) = some (.num (number x), tail) := by
  obtain ⟨b, rest, heq, hb⟩ := (hnumber x).exists_cons
  have hne : ∀ c, isNumberByte c = false → b ≠ c := by
    rintro c hc rfl
    simp [hc] at hb
  have hws : isWs b = false := by
    obtain ⟨c, r, heq', hws, -⟩ := starts_number hnumber isDelimiter_bracket.2 x
    rw [heq] at heq'
    cases heq'
    exact hws
  have hscan := extends_scanNumber _ _ _ (hnumber x) tail htail
  simp only [heq, List.cons_append] at hscan ⊢
  rw [readValue_cons (skipWs_cons hws _), if_neg (hne 110 rfl), if_neg (hne 116 rfl),
    if_neg (hne 102 rfl), if_neg (hne 34 rfl), if_neg (hne 91 rfl), if_neg (hne 123 rfl), hscan]
  rfl

theorem fuel_of_render {depth fuel : Nat} {v : Tree (List UInt8) ν}
    (hfuel : (render number plain depth v).length ≤ fuel) : ∃ n, fuel = n + 1 := by
  obtain ⟨b, rest, heq, -⟩ := starts_render hnumber depth v
  refine ⟨fuel - 1, ?_⟩
  rw [heq, List.length_cons] at hfuel
  omega

/-- A written value reads as its tree. -/
theorem reads_render (v : Tree (List UInt8) ν) (depth : Nat) {fuel : Nat}
    (hfuel : (render number plain depth v).length ≤ fuel) :
    Reads (readValue fuel) (render number plain depth v) (spell number v) := by
  induction v using Tree.induct generalizing depth fuel with
  | null =>
      obtain ⟨fuel, rfl⟩ := fuel_of_render hnumber hfuel
      exact Reads.of_eq fun tail htail => rfl
  | bool b =>
      obtain ⟨fuel, rfl⟩ := fuel_of_render hnumber hfuel
      cases b <;> exact Reads.of_eq fun tail htail => rfl
  | num x =>
      obtain ⟨fuel, rfl⟩ := fuel_of_render hnumber hfuel
      exact Reads.of_eq fun tail htail => readValue_number hnumber x htail
  | str s =>
      obtain ⟨fuel, rfl⟩ := fuel_of_render hnumber hfuel
      refine Reads.of_eq fun tail htail => ?_
      have hskip : skipWs (34 :: (escape s ++ 34 :: tail)) =
          34 :: (escape s ++ 34 :: tail) := skipWs_cons rfl _
      simp only [render, quoted, List.cons_append, List.append_assoc, List.nil_append]
      rw [readValue_cons hskip, scanString_escape]
      rfl
  | arr items ih =>
      obtain ⟨fuel, rfl⟩ := fuel_of_render hnumber hfuel
      simp only [render, renderItems_eq, List.length_cons, List.length_append, List.length_nil]
        at hfuel
      have hcount := count_le_commas (items.map (render number plain (depth + 1)))
      rw [List.length_map] at hcount
      have hreads : ∀ v ∈ items,
          Reads (readValue fuel) (render number plain (depth + 1) v) (spell number v) := by
        intro v hv
        have hlen := length_le_commas
          (List.mem_map_of_mem (f := render number plain (depth + 1)) hv)
        exact ih v hv (depth + 1) (by omega)
      refine Reads.of_eq fun tail htail => ?_
      simp only [render, renderItems_eq, spell, Tree.map, Tree.mapItems_eq]
      exact readValue_array hreads (fun v _ => starts_render hnumber (depth + 1) v) (by omega)
        (tail)
  | obj members ih =>
      obtain ⟨fuel, rfl⟩ := fuel_of_render hnumber hfuel
      simp only [render, renderMembers_eq, plain, List.append_nil, List.length_cons,
        List.length_append, List.length_nil] at hfuel
      have hcount := count_le_commas
        (members.map fun m => memberText m.1 (render number plain (depth + 1) m.2))
      rw [List.length_map] at hcount
      have hreads : ∀ m ∈ members, Reads (readMember (readValue fuel))
          (memberText m.1 (render number plain (depth + 1) m.2))
          (m.1.map unitOf, spell number m.2) := by
        intro m hm
        have hlen := length_le_commas (List.mem_map_of_mem
          (f := fun m => memberText m.1 (render number plain (depth + 1) m.2)) hm)
        have hvalue := length_le_memberText m.1 (render number plain (depth + 1) m.2)
        exact reads_memberText (ih m hm (depth + 1) (by omega)) m.1
      refine Reads.of_eq fun tail htail => ?_
      simp only [render, renderMembers_eq, plain, List.append_nil, spell, Tree.map,
        Tree.mapMembers_eq]
      exact readValue_object hreads (fun m _ => starts_memberText _ _) (by omega) (tail)

/-- A written value is the value of a member. -/
theorem isMember_render (v : Tree (List UInt8) ν) (depth : Nat) (key : List UInt8) :
    IsMember (memberText key (render number plain depth v)) (key.map unitOf, spell number v) := by
  refine ⟨starts_memberText key _, fun fuel hfuel => ?_⟩
  have hlen := length_le_memberText key (render number plain depth v)
  exact reads_memberText (reads_render hnumber v depth (by omega)) key

/-- A written value has no NUL. -/
theorem zero_not_mem_render (v : Tree (List UInt8) ν) (depth : Nat) :
    (0 : UInt8) ∉ render number plain depth v := by
  induction v using Tree.induct generalizing depth with
  | null => simp [render]
  | bool b => cases b <;> simp [render]
  | num x => exact (hnumber x).zero_not_mem
  | str s => simp [render, quoted, zero_not_mem_escape]
  | arr items ih =>
      have hitems : (0 : UInt8) ∉ commas (items.map (render number plain (depth + 1))) :=
        zero_not_mem_commas (by simpa using fun v hv => ih v hv (depth + 1))
      simp [render, renderItems_eq, hitems]
  | obj members ih =>
      have hmembers : (0 : UInt8) ∉ commas
          (members.map fun m => memberText m.1 (render number plain (depth + 1) m.2)) := by
        refine zero_not_mem_commas fun text htext => ?_
        obtain ⟨m, hm, rfl⟩ := List.mem_map.mp htext
        simp [memberText, quoted, zero_not_mem_escape, ih m hm (depth + 1)]
      simp [render, renderMembers_eq, plain] at hmembers ⊢
      exact hmembers

end Written

end Utilpp.Lib.Json
