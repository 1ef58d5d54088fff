import Utilpp.Jrpc.Parser

/-!
# The typed accessors of the parser

`StaticParse` uses an accessor of a type on a value that a schema has let through. The schemas say
that an id and an error code are numbers and that the data of an error are not null; the accessors
want an unsigned 32-bit integer, a signed 64-bit integer and a string. `staticParse_total_iff` says
that this difference is all that stands between an accepted document and its message.
-/

namespace Utilpp.Jrpc

open Lib Lib.Json

variable {F : Doubles}

/-! ## What the accessors want -/

/-- An integer from `0` to `2 ^ 32 - 1`. -/
def IsUint (v : Document F) : Prop :=
  ∃ n : Integer, v = .num (.int n) ∧ 0 ≤ n.val ∧ n.val < 2 ^ 32

/-- An integer from `-2 ^ 63` to `2 ^ 63 - 1`. -/
def IsInt64 (v : Document F) : Prop := ∃ n : Integer, v = .num (.int n) ∧ n.val < 2 ^ 63

/-- The id of a message, if it is a number, is an unsigned 32-bit integer. -/
def UintID (doc : Document F) : Prop :=
  ∀ id, doc.find idFieldStr = some id → id.jsonType = .number → IsUint id

/-- The error of a response has a code of 64 bits, and its data are a string. -/
structure PlainError (error : Document F) : Prop where
  code : ∀ code, error.find errorCodeFieldStr = some code → IsInt64 code
  data : ∀ data, error.find errorDataFieldStr = some data → data.jsonType = .string

/-- A response without a result has a plain error. -/
def PlainErrors (doc : Document F) : Prop :=
  doc.find resultFieldStr = none →
    ∀ error, doc.find errorFieldStr = some error → PlainError error

theorem getUint_ok_iff (v : Document F) : (∃ n, getUint v = .ok n) ↔ IsUint v := by
  constructor
  · rintro ⟨n, h⟩
    unfold getUint at h
    split at h
    · rename_i m
      split at h
      · rename_i hrange
        exact ⟨m, rfl, hrange⟩
      · cases h
    · cases h
  · rintro ⟨m, rfl, hrange⟩
    exact ⟨_, if_pos hrange⟩

theorem getInt64_ok_iff (v : Document F) : (∃ n, getInt64 v = .ok n) ↔ IsInt64 v := by
  constructor
  · rintro ⟨n, h⟩
    unfold getInt64 at h
    split at h
    · rename_i m
      split at h
      · rename_i hrange
        exact ⟨m, rfl, hrange⟩
      · cases h
    · cases h
  · rintro ⟨m, rfl, hrange⟩
    exact ⟨_, if_pos hrange⟩

theorem getString_ok_iff (v : Document F) : (∃ s, getString v = .ok s) ↔ v.jsonType = .string := by
  cases v with
  | str s => exact iff_of_true ⟨_, rfl⟩ rfl
  | null | bool _ | num _ | arr _ | obj _ => exact iff_of_false nofun nofun

/-- Reading an id faults on a number that is no unsigned 32-bit integer. -/
theorem readID_ok_iff (v : Document F) :
    (∃ id, readID v = .ok id) ↔ (v.jsonType = .number → IsUint v) := by
  unfold readID isNumber
  split
  · rename_i hnumber
    rw [← getUint_ok_iff]
    cases getUint v with
    | ok n => exact iff_of_true ⟨_, rfl⟩ fun _ => ⟨n, rfl⟩
    | error fault => exact iff_of_false nofun fun h => nomatch h (of_decide_eq_true hnumber)
  · rename_i hnumber
    exact iff_of_true ⟨_, rfl⟩ fun h => absurd (decide_eq_true h) hnumber

/-! ## What the schemas let through -/

/-- A member that is required is there. -/
theorem exists_find {doc : Document F} {keys : List (List UInt8)} {key : List UInt8}
    (hobject : doc.jsonType = .object) (h : (Schema.required keys).accepts doc = true)
    (hkey : key ∈ keys) : ∃ v, doc.find key = some v := by
  simp only [Schema.accepts_required, hobject, ne_eq, not_true_eq_false, decide_false,
    Bool.false_or, List.all_eq_true] at h
  exact Option.isSome_iff_exists.mp (h key hkey)

/-- The member that an accessor finds satisfies the schema of its key. -/
theorem accepts_find {doc v : Document F} {key : List UInt8} {schema : Schema (List UInt8)}
    (h : (Schema.property key schema).accepts doc = true) (hfind : doc.find key = some v) :
    schema.accepts v = true := by
  obtain ⟨m, hm, rfl⟩ := Option.map_eq_some_iff.mp hfind
  have hkey : m.1 = key := by simpa using List.find?_some hm
  simp only [Schema.accepts_property, List.all_eq_true] at h
  have hmember := h m (List.mem_of_find?_eq_some hm)
  simpa [hkey] using hmember

/-- A request has a method, which is a string. -/
theorem method_of_accepts {doc : Document F} (h : reqSchema.accepts doc = true) :
    ∃ v, doc.find methodFieldStr = some v ∧ v.jsonType = .string := by
  simp only [reqSchema, Schema.accepts_all, Schema.acceptsAll_cons, Bool.and_eq_true] at h
  obtain ⟨hobject, hmethod, -, -, hrequired, -⟩ := h
  rw [Schema.accepts_type] at hobject
  obtain ⟨v, hv⟩ := exists_find hobject hrequired (List.mem_singleton.mpr rfl)
  have htype := accepts_find hmethod hv
  rw [Schema.accepts_type] at htype
  exact ⟨v, hv, htype⟩

/-- A response has an id, and a result or an error; an error has a code and a message, which is a
string. -/
theorem members_of_accepts {doc : Document F} (h : respondSchema.accepts doc = true) :
    (∃ v, doc.find idFieldStr = some v) ∧
      ((∃ v, doc.find resultFieldStr = some v) ∨
        ∃ error, doc.find errorFieldStr = some error ∧
          (∃ v, error.find errorCodeFieldStr = some v) ∧
          ∃ v, error.find errorMsgFieldStr = some v ∧ v.jsonType = .string) := by
  simp only [respondSchema, Schema.accepts_all, Schema.acceptsAll_cons, Bool.and_eq_true] at h
  obtain ⟨hobject, -, herror, -, hone, -⟩ := h
  rw [Schema.accepts_type] at hobject
  rw [Schema.accepts_oneOf, beq_iff_eq, Schema.acceptedBy_cons, Schema.acceptedBy_cons] at hone
  by_cases hresult : (Schema.required [resultFieldStr, idFieldStr]).accepts doc = true
  · refine ⟨exists_find hobject hresult (by simp), .inl ?_⟩
    exact exists_find hobject hresult (by simp)
  · have hrequired : (Schema.required [errorFieldStr, idFieldStr]).accepts doc = true := by
      by_contra hnot
      rw [if_neg hresult, if_neg hnot] at hone
      exact absurd hone Nat.zero_ne_one
    obtain ⟨error, hfind⟩ := exists_find hobject hrequired (List.mem_cons_self)
    refine ⟨exists_find hobject hrequired (by simp), .inr ⟨error, hfind, ?_⟩⟩
    have haccepts := accepts_find herror hfind
    simp only [errorSchema, Schema.accepts_all, Schema.acceptsAll_cons,
      Bool.and_eq_true] at haccepts
    obtain ⟨herrorObject, -, hmsg, -, hmembers, -⟩ := haccepts
    rw [Schema.accepts_type] at herrorObject
    have hmsgMember : ∃ v, error.find errorMsgFieldStr = some v :=
      exists_find herrorObject hmembers (by simp)
    obtain ⟨msg, hmsgFind⟩ := hmsgMember
    have htype := accepts_find hmsg hmsgFind
    rw [Schema.accepts_type] at htype
    exact ⟨exists_find herrorObject hmembers (by simp), msg, hmsgFind, htype⟩

/-! ## Messages -/

/-- The request of an accepted document is read unless its id is a number of another type. -/
theorem readRequest_ok_iff {doc : Document F} (h : reqSchema.accepts doc = true) :
    (∃ req, readRequest doc = .ok req) ↔ UintID doc := by
  obtain ⟨method, hmethod, htype⟩ := method_of_accepts h
  obtain ⟨text, htext⟩ := (getString_ok_iff method).mpr htype
  simp only [readRequest, member, hmethod, htext, bind, Except.bind]
  unfold UintID
  cases hfind : doc.find idFieldStr with
  | none => exact iff_of_true ⟨_, rfl⟩ fun _ hid => nomatch hid
  | some node =>
      have hiff := readID_ok_iff node
      simp only [Option.some.injEq, forall_eq', ← hiff]
      cases readID node with
      | ok id => exact iff_of_true ⟨_, rfl⟩ ⟨id, rfl⟩
      | error fault => exact iff_of_false nofun nofun

/-- The error of an accepted document is read if it is plain. -/
theorem readError_ok_iff {error : Document F} (id : Option UInt32)
    (hcode : ∃ v, error.find errorCodeFieldStr = some v)
    (hmsg : ∃ v, error.find errorMsgFieldStr = some v ∧ v.jsonType = .string) :
    (∃ resp, readError id error = .ok resp) ↔ PlainError error := by
  obtain ⟨code, hcode⟩ := hcode
  obtain ⟨msg, hmsg, htype⟩ := hmsg
  obtain ⟨text, htext⟩ := (getString_ok_iff msg).mpr htype
  have hcodeIff := getInt64_ok_iff code
  simp only [readError, member, hcode, hmsg, htext, bind, Except.bind]
  cases hget : getInt64 code with
  | error fault =>
      refine iff_of_false nofun fun h => ?_
      obtain ⟨n, hn⟩ := hcodeIff.mpr (h.code code hcode)
      rw [hget] at hn
      cases hn
  | ok n =>
      have hint : IsInt64 code := hcodeIff.mp ⟨n, hget⟩
      have hcodes : ∀ v, error.find errorCodeFieldStr = some v → IsInt64 v := by
        intro v hv
        rw [hcode] at hv
        cases hv
        exact hint
      cases hfind : error.find errorDataFieldStr with
      | none => exact iff_of_true ⟨_, rfl⟩ ⟨hcodes, fun _ hv => nomatch hfind.symm.trans hv⟩
      | some node =>
          have hnodeIff := getString_ok_iff node
          simp only []
          cases hstring : getString node with
          | ok s =>
              refine iff_of_true ⟨_, rfl⟩ ⟨hcodes, fun v hv => ?_⟩
              rw [hfind] at hv
              cases hv
              exact hnodeIff.mp ⟨s, hstring⟩
          | error fault =>
              refine iff_of_false nofun fun h => ?_
              obtain ⟨s, hs⟩ := hnodeIff.mpr (h.data node hfind)
              rw [hstring] at hs
              cases hs

/-- The response of an accepted document is read if its id and its error are plain. -/
theorem readResponse_ok_iff {doc : Document F} (h : respondSchema.accepts doc = true) :
    (∃ resp, readResponse doc = .ok resp) ↔ UintID doc ∧ PlainErrors doc := by
  obtain ⟨⟨node, hid⟩, hmembers⟩ := members_of_accepts h
  have hnodeIff := readID_ok_iff node
  have hidIff : UintID doc ↔ (node.jsonType = .number → IsUint node) := by
    unfold UintID
    simp only [hid, Option.some.injEq, forall_eq']
  rw [hidIff, ← hnodeIff]
  simp only [readResponse, member, hid, bind, Except.bind]
  cases readID node with
  | error fault => exact iff_of_false nofun (fun h => nomatch h.1)
  | ok id =>
      unfold PlainErrors
      cases hresult : doc.find resultFieldStr with
      | some result => exact iff_of_true ⟨_, rfl⟩ ⟨⟨id, rfl⟩, nofun⟩
      | none =>
          rcases hmembers with ⟨v, hv⟩ | ⟨error, herror, hcode, hmsg⟩
          · rw [hresult] at hv
            cases hv
          · simp only [herror, readError_ok_iff id hcode hmsg, Option.some.injEq, forall_eq']
            exact ⟨fun h => ⟨⟨id, rfl⟩, fun _ => h⟩, fun h => h.2 trivial⟩

/-! ## Texts -/

/-- The text is parsed without a fault, and a document that a schema accepts becomes a request or
a response. -/
def Parses (F : Doubles) (data : List UInt8) : Prop :=
  ∃ result, staticParse F data = .ok result ∧
    ∀ doc, parseDocument F data = some doc →
      (reqSchema.accepts doc ∨ respondSchema.accepts doc) →
      (∃ req, result = .request req) ∨ ∃ resp, result = .response resp

/-- A request has a plain id; a response that is no request has a plain id and a plain error. -/
def PlainMessage (doc : Document F) : Prop :=
  (reqSchema.accepts doc → UintID doc) ∧
    (¬ reqSchema.accepts doc → respondSchema.accepts doc → UintID doc ∧ PlainErrors doc)

/-- The accessors fit every text but those with an accepted document whose id, error code or error
data have a type that the schemas admit and the accessors do not. -/
theorem staticParse_total_iff (F : Doubles) (data : List UInt8) :
    Parses F data ↔ ∀ doc, parseDocument F data = some doc → PlainMessage doc := by
  unfold Parses
  cases hdoc : parseDocument F data with
  | none => simp [staticParse, hdoc]
  | some doc =>
      simp only [staticParse, hdoc, Option.some.injEq, forall_eq', PlainMessage]
      by_cases hreq : reqSchema.accepts doc = true
      · simp only [hreq, if_true, true_or, forall_true_left, not_true_eq_false, false_imp_iff,
          and_true, ← readRequest_ok_iff hreq]
        cases readRequest doc with
        | ok req => exact iff_of_true ⟨_, rfl, .inl ⟨req, rfl⟩⟩ ⟨req, rfl⟩
        | error fault => exact iff_of_false (fun ⟨_, h, _⟩ => nomatch h) nofun
      · by_cases hresp : respondSchema.accepts doc = true
        · simp only [hreq, hresp, if_true, if_false, or_true, forall_true_left, false_imp_iff,
            true_and, not_false_eq_true, Bool.false_eq_true, ← readResponse_ok_iff hresp]
          cases readResponse doc with
          | ok resp => exact iff_of_true ⟨_, rfl, .inr ⟨resp, rfl⟩⟩ ⟨resp, rfl⟩
          | error fault => exact iff_of_false (fun ⟨_, h, _⟩ => nomatch h) nofun
        · simp [hreq, hresp]

/-- A request whose id is a negative number. -/
def negativeID : List UInt8 :=
  ascii ['{', '"', 'm', 'e', 't', 'h', 'o', 'd', '"', ':', '"', 'm', '"', ',', '"', 'i', 'd', '"',
    ':', '-', '1', '}']

/-- The schema of a request accepts a negative id, and `GetUint` does not. -/
theorem negative_id_faults :
    (parseDocument spelledDoubles negativeID).any reqSchema.accepts = true ∧
      ¬ Parses spelledDoubles negativeID := by
  refine ⟨by decide, ?_⟩
  rintro ⟨result, hresult, -⟩
  have hfault : (staticParse spelledDoubles negativeID).toOption.isNone = true := by
    decide
  rw [hresult] at hfault
  cases hfault

end Utilpp.Jrpc
