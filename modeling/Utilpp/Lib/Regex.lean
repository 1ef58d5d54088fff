import Mathlib.Data.List.Basic
import Mathlib.Logic.Function.Basic

/-!
# Regular expressions with backtracking

The expressions of ECMAScript without alternatives in which only classes of symbols are repeated.
`run` is the matcher: it tries the ways in which an expression matches a beginning of the symbols, a
repetition or an optional part first with as many symbols as it can, and takes the first way in
which the continuation succeeds. `Parses` is what a successful run has found (`run_sound`), and the
symbols in a capture group are in the classes of the group (`Parses.groups`). The other lemmas say
which way is the first one.

No group is entered twice, so that captures are never reset.
-/

namespace Utilpp.Lib

variable {α β : Type*}

inductive Regex (α : Type*) where
  | empty
  | char (p : α → Bool)
  | many (p : α → Bool)
  | seq (r t : Regex α)
  | opt (r : Regex α)
  | group (n : Nat) (r : Regex α)

/-- The symbols that the groups have matched. -/
abbrev Captures (α : Type*) := Nat → Option (List α)

/-- Before a match no group has matched anything. -/
def noCaptures : Captures α := fun _ => none

namespace Regex

/-- One symbol. -/
def sym [DecidableEq α] (a : α) : Regex α := char fun c => c == a

/-- Some symbols, one behind the other. -/
def lit [DecidableEq α] (word : List α) : Regex α := word.foldr (fun a r => seq (sym a) r) empty

/-- One symbol of a class or more. -/
def plus (p : α → Bool) : Regex α := seq (char p) (many p)

/-- The repetition of a class, with as many symbols as the continuation lets it have. -/
def runMany (p : α → Bool) : List α → (List α → Option β) → Option β
  | [], k => k []
  | c :: s, k =>
      if p c then
        match runMany p s k with
        | some b => some b
        | none => k (c :: s)
      else k (c :: s)

/-- The first match of a beginning of `s` for which the continuation `k`, which gets the rest, has a
result. -/
def run : Regex α → List α → Captures α → (List α → Captures α → Option β) → Option β
  | .empty, s, caps, k => k s caps
  | .char p, s, caps, k =>
      match s with
      | [] => none
      | c :: rest => if p c then k rest caps else none
  | .many p, s, caps, k => runMany p s fun rest => k rest caps
  | .seq r t, s, caps, k => r.run s caps fun rest caps => t.run rest caps k
  | .opt r, s, caps, k =>
      -- a match of no symbols counts as none
      match r.run s caps fun rest caps => if rest.length = s.length then none else k rest caps with
      | some b => some b
      | none => k s caps
  | .group n r, s, caps, k =>
      r.run s caps fun rest caps =>
        k rest (Function.update caps n (some (s.take (s.length - rest.length))))

/-- `std::regex_match`: a match of all symbols. -/
def fullMatch (r : Regex α) (s : List α) : Option (Captures α) :=
  r.run s noCaptures fun rest caps =>
    match rest with
    | [] => some caps
    | _ :: _ => none

/-- `std::regex_search`: the first place with a match, and the symbols behind it. -/
def search (r : Regex α) : List α → Option (Captures α × List α)
  | [] => r.run [] noCaptures fun rest caps => some (caps, rest)
  | c :: s =>
      match r.run (c :: s) noCaptures fun rest caps => some (caps, rest) with
      | some found => some found
      | none => r.search s

/-- `std::regex_iterator` for an expression that does not match without symbols: the matches one
behind the other. -/
def allMatches (r : Regex α) (s : List α) : List (Captures α) :=
  match r.search s with
  | none => []
  | some (caps, rest) => if rest.length < s.length then caps :: r.allMatches rest else [caps]
termination_by s.length

/-! ## Steps of the matcher -/

theorem runMany_cons {p : α → Bool} {c : α} {s : List α} {k : List α → Option β} :
    runMany p (c :: s) k =
      if p c then
        match runMany p s k with
        | some b => some b
        | none => k (c :: s)
      else k (c :: s) :=
  rfl

theorem run_char_cons {p : α → Bool} {c : α} {s : List α} {caps : Captures α}
    {k : List α → Captures α → Option β} :
    (char p).run (c :: s) caps k = if p c then k s caps else none :=
  rfl

theorem run_seq {r t : Regex α} {s : List α} {caps : Captures α}
    {k : List α → Captures α → Option β} :
    (seq r t).run s caps k = r.run s caps fun rest caps => t.run rest caps k :=
  rfl

theorem run_opt {r : Regex α} {s : List α} {caps : Captures α}
    {k : List α → Captures α → Option β} :
    (opt r).run s caps k =
      match r.run s caps fun rest caps =>
        if rest.length = s.length then none else k rest caps with
      | some b => some b
      | none => k s caps :=
  rfl

theorem search_cons {r : Regex α} {c : α} {s : List α} :
    r.search (c :: s) =
      match r.run (c :: s) noCaptures fun rest caps => some (caps, rest) with
      | some found => some found
      | none => r.search s :=
  rfl

/-! ## What a match is -/

/-- The expression matches `word` and takes the captures `caps` to `caps'`. -/
def Parses : Regex α → List α → Captures α → Captures α → Prop
  | .empty, word, caps, caps' => word = [] ∧ caps' = caps
  | .char p, word, caps, caps' => ∃ c, word = [c] ∧ p c = true ∧ caps' = caps
  | .many p, word, caps, caps' => (∀ c ∈ word, p c = true) ∧ caps' = caps
  | .seq r t, word, caps, caps' => ∃ first second mid, word = first ++ second ∧
      r.Parses first caps mid ∧ t.Parses second mid caps'
  | .opt r, word, caps, caps' => (word = [] ∧ caps' = caps) ∨ r.Parses word caps caps'
  | .group n r, word, caps, caps' => ∃ mid, r.Parses word caps mid ∧
      caps' = Function.update mid n (some word)

theorem runMany_sound {p : α → Bool} {s : List α} {k : List α → Option β} {b : β}
    (h : runMany p s k = some b) :
    ∃ word rest, s = word ++ rest ∧ (∀ c ∈ word, p c = true) ∧ k rest = some b := by
  induction s with
  | nil => exact ⟨[], [], rfl, nofun, h⟩
  | cons c s ih =>
      rw [runMany_cons] at h
      split at h
      · rename_i hc
        split at h
        · rename_i b' hrun
          cases h
          obtain ⟨word, rest, rfl, hword, hk⟩ := ih hrun
          exact ⟨c :: word, rest, rfl, List.forall_mem_cons.mpr ⟨hc, hword⟩, hk⟩
        · exact ⟨[], c :: s, rfl, nofun, h⟩
      · exact ⟨[], c :: s, rfl, nofun, h⟩

/-- A successful run has found a match of a beginning and continued behind it. -/
theorem run_sound {r : Regex α} {s : List α} {caps : Captures α}
    {k : List α → Captures α → Option β} {b : β} (h : r.run s caps k = some b) :
    ∃ word rest caps', s = word ++ rest ∧ r.Parses word caps caps' ∧ k rest caps' = some b := by
  induction r generalizing s caps k with
  | empty => exact ⟨[], s, caps, rfl, ⟨rfl, rfl⟩, h⟩
  | char p =>
      cases s with
      | nil => cases h
      | cons c rest =>
          rw [run_char_cons] at h
          split at h
          · rename_i hc
            exact ⟨[c], rest, caps, rfl, ⟨c, rfl, hc, rfl⟩, h⟩
          · cases h
  | many p =>
      obtain ⟨word, rest, rfl, hword, hk⟩ := runMany_sound h
      exact ⟨word, rest, caps, rfl, ⟨hword, rfl⟩, hk⟩
  | seq r t ihr iht =>
      obtain ⟨first, middle, mid, rfl, hr, hk⟩ := ihr h
      obtain ⟨second, rest, caps', rfl, ht, hk⟩ := iht hk
      exact ⟨first ++ second, rest, caps', (List.append_assoc ..).symm,
        ⟨first, second, mid, rfl, hr, ht⟩, hk⟩
  | opt r ih =>
      rw [run_opt] at h
      split at h
      · rename_i b' hrun
        cases h
        obtain ⟨word, rest, caps', rfl, hr, hk⟩ := ih hrun
        split at hk
        · cases hk
        · exact ⟨word, rest, caps', rfl, Or.inr hr, hk⟩
      · exact ⟨[], s, caps, rfl, Or.inl ⟨rfl, rfl⟩, h⟩
  | group n r ih =>
      obtain ⟨word, rest, mid, rfl, hr, hk⟩ := ih h
      have hlength : (word ++ rest).length - rest.length = word.length := by
        rw [List.length_append, Nat.add_sub_cancel]
      rw [hlength, List.take_left] at hk
      exact ⟨word, rest, _, rfl, ⟨mid, hr, rfl⟩, hk⟩

theorem fullMatch_sound {r : Regex α} {s : List α} {caps : Captures α}
    (h : r.fullMatch s = some caps) : r.Parses s noCaptures caps := by
  obtain ⟨word, rest, caps', rfl, hparses, hk⟩ := run_sound h
  cases rest with
  | nil =>
      cases hk
      rw [List.append_nil]
      exact hparses
  | cons c rest => cases hk

theorem search_sound {r : Regex α} {s rest : List α} {caps : Captures α}
    (h : r.search s = some (caps, rest)) : ∃ word, r.Parses word noCaptures caps := by
  induction s with
  | nil =>
      obtain ⟨word, rest', caps', -, hparses, hk⟩ := run_sound h
      cases hk
      exact ⟨word, hparses⟩
  | cons c s ih =>
      rw [search_cons] at h
      split at h
      · rename_i found hrun
        cases h
        obtain ⟨word, rest', caps', -, hparses, hk⟩ := run_sound hrun
        cases hk
        exact ⟨word, hparses⟩
      · exact ih h

theorem allMatches_sound {r : Regex α} {s : List α} {caps : Captures α}
    (h : caps ∈ r.allMatches s) : ∃ word, r.Parses word noCaptures caps := by
  fun_induction allMatches r s with
  | case1 s hsearch => cases h
  | case2 s caps' rest hsearch hless ih =>
      rcases List.mem_cons.mp h with rfl | hrest
      · exact search_sound hsearch
      · exact ih hrest
  | case3 s caps' rest hsearch hnot =>
      rw [List.mem_singleton.mp h]
      exact search_sound hsearch

/-! ## Classes of captures -/

/-- All classes of the expression are part of the class `q`. -/
def Within (q : α → Bool) : Regex α → Prop
  | .empty => True
  | .char p | .many p => ∀ c, p c = true → q c = true
  | .seq r t => r.Within q ∧ t.Within q
  | .opt r | .group _ r => r.Within q

/-- The classes in group `n` are part of the class `q n`. -/
def GroupsWithin (q : Nat → α → Bool) : Regex α → Prop
  | .empty | .char _ | .many _ => True
  | .seq r t => r.GroupsWithin q ∧ t.GroupsWithin q
  | .opt r => r.GroupsWithin q
  | .group n r => r.Within (q n) ∧ r.GroupsWithin q

theorem Parses.within {q : α → Bool} {r : Regex α} {word : List α} {caps caps' : Captures α}
    (h : r.Parses word caps caps') (hwithin : r.Within q) : ∀ c ∈ word, q c = true := by
  induction r generalizing word caps caps' with
  | empty =>
      rw [h.1]
      exact nofun
  | char p =>
      obtain ⟨c, rfl, hc, -⟩ := h
      exact List.forall_mem_singleton.mpr (hwithin c hc)
  | many p => exact fun c hc => hwithin c (h.1 c hc)
  | seq r t ihr iht =>
      obtain ⟨first, second, mid, rfl, hr, ht⟩ := h
      exact List.forall_mem_append.mpr ⟨ihr hr hwithin.1, iht ht hwithin.2⟩
  | opt r ih =>
      rcases h with ⟨rfl, -⟩ | hr
      · exact nofun
      · exact ih hr hwithin
  | group n r ih =>
      obtain ⟨mid, hr, -⟩ := h
      exact ih hr hwithin

/-- The symbols that a group has matched are in the class of the group. -/
theorem Parses.groups {q : Nat → α → Bool} {r : Regex α} {word : List α} {caps caps' : Captures α}
    (h : r.Parses word caps caps') (hwithin : r.GroupsWithin q)
    (hcaps : ∀ n, ∀ c ∈ (caps n).getD [], q n c = true) :
    ∀ n, ∀ c ∈ (caps' n).getD [], q n c = true := by
  induction r generalizing word caps caps' with
  | empty => exact h.2 ▸ hcaps
  | char p =>
      obtain ⟨c, -, -, rfl⟩ := h
      exact hcaps
  | many p => exact h.2 ▸ hcaps
  | seq r t ihr iht =>
      obtain ⟨first, second, mid, -, hr, ht⟩ := h
      exact iht ht hwithin.2 (ihr hr hwithin.1 hcaps)
  | opt r ih =>
      rcases h with ⟨-, rfl⟩ | hr
      · exact hcaps
      · exact ih hr hwithin hcaps
  | group n r ih =>
      obtain ⟨mid, hr, rfl⟩ := h
      intro m c hc
      by_cases hm : m = n
      · rw [hm, Function.update_self] at hc
        exact hm ▸ hr.within hwithin.1 c hc
      · rw [Function.update_of_ne hm] at hc
        exact ih hr hwithin.2 hcaps m c hc

/-! ## The first way -/

variable {p : α → Bool} {r t : Regex α} {s word rest : List α} {caps : Captures α}
  {k : List α → Captures α → Option β} {b : β} {c : α}

/-- The symbols do not begin with one of the class. -/
def Stops (p : α → Bool) (s : List α) : Prop := ∀ c ∈ s.head?, p c = false

theorem stops_nil : Stops p [] := nofun

theorem stops_cons (hc : p c = false) : Stops p (c :: s) := by
  intro d hd
  rw [List.head?_cons, Option.mem_some_iff] at hd
  exact hd ▸ hc

theorem runMany_of_stops {k : List α → Option β} (hstops : Stops p s) :
    runMany p s k = k s := by
  cases s with
  | nil => rfl
  | cons c s =>
      have hc : p c = false := hstops c rfl
      rw [runMany_cons, hc]
      rfl

/-- An expression that needs a symbol of the class does not match elsewhere. -/
theorem run_char_seq_of_stops (hstops : Stops p s) :
    (seq (char p) r).run s caps k = none := by
  cases s with
  | nil => rfl
  | cons c s =>
      have hc : p c = false := hstops c rfl
      rw [run_seq, run_char_cons, hc]
      rfl

/-- An optional part that begins with a symbol that is not there is left out. -/
theorem run_opt_of_stops (hstops : Stops p s) :
    (opt (seq (char p) r)).run s caps k = k s caps := by
  rw [run_opt, run_char_seq_of_stops hstops]

/-- The first way matches `word` in front of `rest` and takes the captures `caps` to `caps'`: what
the continuation finds there is the result. -/
def Takes (β : Type*) (r : Regex α) (word rest : List α) (caps caps' : Captures α) : Prop :=
  ∀ (k : List α → Captures α → Option β) (b : β), k rest caps' = some b →
    r.run (word ++ rest) caps k = some b

section Takes

variable {first second rest : List α} {mid caps' : Captures α} {n : Nat}

/-- A symbol of the class is taken first. -/
theorem Takes.cons (hc : p c = true) (h : Takes β r word rest caps caps') :
    Takes β (.seq (.char p) r) (c :: word) rest caps caps' := by
  intro k b hk
  rw [List.cons_append, run_seq, run_char_cons, if_pos hc]
  exact h k b hk

/-- A repetition takes all symbols up to the first one that is not in the class. -/
theorem takes_many (hword : ∀ c ∈ word, p c = true) (hstops : Stops p rest) :
    Takes β (many p) word rest caps caps := by
  intro k b hk
  show runMany p (word ++ rest) (fun rest => k rest caps) = some b
  induction word with
  | nil =>
      rw [List.nil_append, runMany_of_stops hstops]
      exact hk
  | cons c word ih =>
      obtain ⟨hc, hword⟩ := List.forall_mem_cons.mp hword
      rw [List.cons_append, runMany_cons, if_pos hc, ih hword]

theorem Takes.append (hr : Takes β r first (second ++ rest) caps mid)
    (ht : Takes β t second rest mid caps') :
    Takes β (.seq r t) (first ++ second) rest caps caps' := by
  intro k b hk
  rw [List.append_assoc]
  exact hr _ b (ht k b hk)

theorem takes_lit [DecidableEq α] : Takes β (lit word) word rest caps caps := by
  induction word with
  | nil => exact fun _ _ hk => hk
  | cons c word ih => exact ih.cons (beq_self_eq_true c)

theorem takes_plus (hne : word ≠ []) (hword : ∀ c ∈ word, p c = true) (hstops : Stops p rest) :
    Takes β (plus p) word rest caps caps := by
  cases word with
  | nil => exact absurd rfl hne
  | cons c word =>
      obtain ⟨hc, hword⟩ := List.forall_mem_cons.mp hword
      exact (takes_many hword hstops).cons hc

/-- What a group has matched is captured. -/
theorem Takes.group (h : Takes β r word rest caps mid) :
    Takes β (.group n r) word rest caps (Function.update mid n (some word)) := by
  intro k b hk
  refine h _ b ?_
  show k rest (Function.update mid n
    (some ((word ++ rest).take ((word ++ rest).length - rest.length)))) = some b
  rw [List.length_append, Nat.add_sub_cancel, List.take_left]
  exact hk

/-- An optional part that matches is matched. -/
theorem Takes.opt (h : Takes β r word rest caps caps') (hne : word ≠ []) :
    Takes β (.opt r) word rest caps caps' := by
  intro k b hk
  have hpos := List.length_pos_iff.mpr hne
  have hbody : r.run (word ++ rest) caps (fun rest' caps =>
      if rest'.length = (word ++ rest).length then none else k rest' caps) = some b := by
    refine h _ b ?_
    rw [if_neg (by rw [List.length_append]; omega)]
    exact hk
  rw [run_opt, hbody]

/-- An optional part that matches no more than the empty word is left out. -/
theorem takes_opt_of_none (hnone : ∀ k : List α → Captures α → Option β,
      r.run rest caps (fun rest' caps =>
        if rest'.length = rest.length then none else k rest' caps) = none) :
    Takes β (opt r) [] rest caps caps := by
  intro k b hk
  rw [List.nil_append, run_opt, hnone k]
  exact hk

/-- A mark and a text behind it, which may both be left out. -/
def marked (mark : α) : Option (List α) → List α
  | none => []
  | some text => mark :: text

theorem marked_eq_nil_iff {text : Option (List α)} : marked c text = [] ↔ text = none := by
  cases text with
  | none => exact iff_of_true rfl rfl
  | some text => exact iff_of_false (List.cons_ne_nil c text) nofun

theorem stops_append (hword : Stops p word) (hrest : Stops p rest) : Stops p (word ++ rest) := by
  cases word with
  | nil => exact hrest
  | cons c word => exact hword

theorem stops_marked (hc : p c = false) {text : Option (List α)} : Stops p (marked c text) := by
  cases text with
  | none => exact stops_nil
  | some text => exact stops_cons hc

/-- An optional part that begins with a mark is matched exactly when the mark is there. -/
theorem takes_opt_marked [DecidableEq α] {text : Option (List α)} (hn : caps n = none)
    (hstops : Stops (fun d => d == c) rest) (htext : ∀ word ∈ text, Takes β r word rest caps caps) :
    Takes β (opt (seq (sym c) (group n r))) (marked c text) rest caps
      (Function.update caps n text) := by
  cases text with
  | none =>
      have hupdate : Function.update caps n none = caps := by rw [← hn, Function.update_eq_self]
      rw [hupdate]
      exact takes_opt_of_none fun k => run_char_seq_of_stops hstops
  | some word =>
      exact ((htext word rfl).group.cons (beq_self_eq_true c)).opt (List.cons_ne_nil c word)

theorem Takes.fullMatch (h : Takes (Captures α) r s [] noCaptures caps) :
    r.fullMatch s = some caps := by
  rw [← List.append_nil s]
  exact h _ caps rfl

theorem Takes.search (h : Takes (Captures α × List α) r word rest noCaptures caps) :
    r.search (word ++ rest) = some (caps, rest) := by
  have hrun := h (fun rest caps => some (caps, rest)) (caps, rest) rfl
  generalize word ++ rest = s at hrun
  cases s with
  | nil => exact hrun
  | cons c s => rw [search_cons, hrun]

end Takes

theorem search_cons_of_none (h : (r.run (c :: s) noCaptures fun rest caps =>
    some (caps, rest)) = none) : r.search (c :: s) = r.search s := by
  rw [search_cons, h]

theorem allMatches_of_search (h : r.search s = some (caps, rest))
    (hless : rest.length < s.length) : r.allMatches s = caps :: r.allMatches rest := by
  rw [allMatches, h]
  exact if_pos hless

theorem allMatches_of_none (h : r.search s = none) : r.allMatches s = [] := by
  rw [allMatches, h]

end Regex

end Utilpp.Lib
