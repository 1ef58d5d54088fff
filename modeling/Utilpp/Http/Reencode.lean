import Utilpp.Lib.SetMap
import Utilpp.Uri.ParseUrl
import Mathlib.Data.List.TakeWhile
import Mathlib.Algebra.Ring.Nat

/-!
# Taking the URL of a request apart and putting it together again

`SetupLocalRequest` gives the parts of the URL to libcurl one by one when the URL needs encoding.
The query goes through a map of sets, and a loop over these finds its pairs in an order that is not
specified. The variable for the port is not initialized, and `from_chars` leaves it as it is when
there is no port: what it holds is a parameter here. What libcurl is given are C strings, so that a
part ends at its first null character; libcurl accepts and stores each of them.

`keepsMeaning_iff` says for which URLs libcurl gets the parts of the URL, whatever the order and
the variable are.
-/

namespace Utilpp.Http

open Lib Uri

/-! ## The request -/

/-- The members of `FCurlHttpRequest` that its URL is made from. -/
structure UrlRequest where
  bNeedURLEncode : Bool := false
  port : UInt32 := 0xFFFFFFFF
  url : List Char := []
  host : List Char := []
  path : List Char := []
  scheme : List Char := []
  queries : SetMap (List Char) (List Char) := []

/-- The `CURLUPART_` constants that are used. -/
inductive CurlUrlPart where
  | host
  | scheme
  | path
  | port
  | query
  deriving DecidableEq, Repr

/-- A call of `curl_url_set`, with the flags `CURLU_URLENCODE` and `CURLU_APPENDQUERY`. -/
structure CurlUrlSet where
  part : CurlUrlPart
  content : List Char
  urlEncode : Bool := false
  appendQuery : Bool := false
  deriving DecidableEq, Repr

/-- `c_str`, as its reader sees it. -/
def cString (text : List Char) : List Char := text.takeWhile fun c => c != '\x00'

/-- A pair of the query, as libcurl is given it. -/
def queryItem (param : List Char × List Char) : List Char := param.1 ++ '=' :: param.2

/-- `std::from_chars`: a value that is not there or does not fit leaves the variable as it is. -/
def fromChars (text : List Char) (value : UInt32) : UInt32 :=
  let digits := text.takeWhile Char.isDigit
  if digits = [] ∨ 2 ^ 32 ≤ Nat.ofDigitChars 10 digits 0 then value
  else UInt32.ofNat (Nat.ofDigitChars 10 digits 0)

namespace UrlRequest

variable (order : Iteration (List Char) (List Char)) (unset : UInt32) (req : UrlRequest)

/-- The calls of `GenerateURL` for a part. -/
def setPart : CurlUrlPart → List CurlUrlSet
  | .host => [{ part := .host, content := cString req.host }]
  | .scheme =>
      if req.scheme = [] then [] else [{ part := .scheme, content := cString req.scheme }]
  | .path =>
      if req.path = [] then []
      else [{ part := .path, content := cString req.path, urlEncode := req.bNeedURLEncode }]
  | .port =>
      if req.port < 0xFFFF then
        [{ part := .port, content := cString (Nat.toDigits 10 req.port.toNat) }]
      else []
  | .query =>
      (order.iterate req.queries).map fun param =>
        { part := .query
          content := cString (queryItem param)
          urlEncode := req.bNeedURLEncode
          appendQuery := true }

/-- The calls of `GenerateURL`. -/
def urlSets : List CurlUrlSet :=
  [.host, .scheme, .path, .port, .query].flatMap (req.setPart order)

/-- `GenerateURL`, which fails without a host. -/
def generateURL : Option (List CurlUrlSet) :=
  if req.host = [] then none else some (req.urlSets order)

/-- `SetQuery` -/
def setQuery (param : List Char × List Char) : UrlRequest :=
  { req with queries := req.queries.insert param.1 param.2 }

/-- The request with the parts of its URL. -/
def decompose : UrlRequest :=
  let urlRes := parseUrl req.url {}
  urlRes.outQuery.foldl setQuery
    { req with
      scheme := urlRes.outScheme
      host := urlRes.outAuthority
      path := urlRes.outPath
      port := fromChars urlRes.outPort unset }

/-- `SetupLocalRequest`, with the calls that it makes unless it fails. -/
def setupLocalRequest : Option (List CurlUrlSet) :=
  if req.url = [] then req.generateURL order
  else if req.bNeedURLEncode then (req.decompose unset).generateURL order
  else some []

end UrlRequest

/-! ## What libcurl has been given -/

/-- The content of a part, which is none until the part is set. -/
def stored (part : CurlUrlPart) (calls : List CurlUrlSet) : Option (List Char) :=
  ((calls.filter fun call => call.part = part).getLast?).map (·.content)

/-- The pairs of the query. -/
def storedQuery (calls : List CurlUrlSet) : List (List Char) :=
  (calls.filter fun call => call.part = .query).map (·.content)

/-- The number that a text stands for. -/
def number (text : List Char) : Nat := Nat.ofDigitChars 10 text 0

/-- The port of a URL, if there is one. -/
def portNumber (parsed : ParsedURL) : Option Nat :=
  if parsed.outPort = [] then none else some (number parsed.outPort)

/-- libcurl has been given the parts of a URL. -/
structure Passed (parsed : ParsedURL) (calls : List CurlUrlSet) : Prop where
  scheme : (stored .scheme calls).getD [] = parsed.outScheme
  host : (stored .host calls).getD [] = parsed.outAuthority
  path : (stored .path calls).getD [] = parsed.outPath
  port : (stored .port calls).map number = portNumber parsed
  query : storedQuery calls = parsed.outQuery.map queryItem

/-- A new request for a URL that needs encoding. -/
def requestFor (url : List Char) : UrlRequest := { url, bNeedURLEncode := true }

/-- The request for a URL is set up with the parts of the URL, in whatever order the pairs of the
query are found and whatever the variable for the port holds. -/
def KeepsMeaning (url : List Char) : Prop :=
  ∀ (order : Iteration (List Char) (List Char)) (unset : UInt32), ∃ calls,
    (requestFor url).setupLocalRequest order unset = some calls ∧ Passed (parseUrl url {}) calls

/-- The condition under which it is. -/
structure Reencodable (parsed : ParsedURL) : Prop where
  host : parsed.outAuthority ≠ []
  port : ∃ n ∈ portNumber parsed, n < 0xFFFF
  query : parsed.outQuery.length ≤ 1
  strings : '\x00' ∉ parsed.outScheme ∧ '\x00' ∉ parsed.outAuthority ∧ '\x00' ∉ parsed.outPath ∧
    ∀ param ∈ parsed.outQuery, '\x00' ∉ queryItem param

/-! ## The calls -/

theorem cString_eq_self_iff {text : List Char} : cString text = text ↔ '\x00' ∉ text := by
  rw [cString, List.takeWhile_eq_self_iff]
  exact ⟨fun h hmem => absurd (h _ hmem) nofun,
    fun h c hc => bne_iff_ne.mpr fun heq => h (heq ▸ hc)⟩

namespace UrlRequest

variable {order : Iteration (List Char) (List Char)} {unset : UInt32} {req : UrlRequest}

theorem foldl_setQuery (params : List (List Char × List Char)) :
    params.foldl setQuery req =
      { req with queries := params.foldl (fun m p => m.insert p.1 p.2) req.queries } := by
  induction params generalizing req with
  | nil => rfl
  | cons param params ih => exact ih

theorem part_of_mem_setPart {part : CurlUrlPart} {call : CurlUrlSet}
    (h : call ∈ req.setPart order part) : call.part = part := by
  cases part with
  | host => exact List.mem_singleton.mp h ▸ rfl
  | scheme =>
      rw [setPart] at h
      split at h
      · cases h
      · exact List.mem_singleton.mp h ▸ rfl
  | path =>
      rw [setPart] at h
      split at h
      · cases h
      · exact List.mem_singleton.mp h ▸ rfl
  | port =>
      rw [setPart] at h
      split at h
      · exact List.mem_singleton.mp h ▸ rfl
      · cases h
  | query =>
      obtain ⟨param, -, rfl⟩ := List.mem_map.mp h
      rfl

theorem filter_setPart (part other : CurlUrlPart) :
    (req.setPart order other).filter (·.part = part) =
      if other = part then req.setPart order part else [] := by
  split
  · rename_i heq
    subst heq
    exact List.filter_eq_self.mpr fun call hcall => decide_eq_true (part_of_mem_setPart hcall)
  · rename_i hne
    refine List.filter_eq_nil_iff.mpr fun call hcall heq => hne ?_
    exact (part_of_mem_setPart hcall).symm.trans (of_decide_eq_true heq)

/-- The calls for a part are those that are made for it. -/
theorem filter_urlSets (part : CurlUrlPart) :
    (req.urlSets order).filter (·.part = part) = req.setPart order part := by
  rw [urlSets, List.filter_flatMap]
  simp only [filter_setPart]
  cases part <;> simp

theorem stored_urlSets (part : CurlUrlPart) :
    stored part (req.urlSets order) = (req.setPart order part).getLast?.map (·.content) := by
  rw [stored, filter_urlSets]

theorem stored_host : (stored .host (req.urlSets order)).getD [] = cString req.host := by
  rw [stored_urlSets]
  rfl

theorem stored_scheme : (stored .scheme (req.urlSets order)).getD [] = cString req.scheme := by
  rw [stored_urlSets, setPart]
  split
  · rename_i hempty
    rw [hempty]
    rfl
  · rfl

theorem stored_path : (stored .path (req.urlSets order)).getD [] = cString req.path := by
  rw [stored_urlSets, setPart]
  split
  · rename_i hempty
    rw [hempty]
    rfl
  · rfl

theorem cString_toDigits (n : Nat) : cString (Nat.toDigits 10 n) = Nat.toDigits 10 n := by
  refine cString_eq_self_iff.mpr fun hmem => ?_
  exact absurd (Nat.isDigit_of_mem_toDigits (by decide) (by decide) hmem) (by decide)

theorem stored_port : (stored .port (req.urlSets order)).map number =
    if req.port < 0xFFFF then some req.port.toNat else none := by
  rw [stored_urlSets, setPart]
  split
  · show some (number (cString (Nat.toDigits 10 req.port.toNat))) = _
    rw [cString_toDigits, number, Nat.ofDigitChars_ten_toDigits]
  · rfl

theorem storedQuery_urlSets : storedQuery (req.urlSets order) =
    (order.iterate req.queries).map fun param => cString (queryItem param) := by
  rw [storedQuery, filter_urlSets]
  exact List.map_map

/-- The request that the URL is put together from again. -/
theorem decompose_eq (url : List Char) : (requestFor url).decompose unset =
    { bNeedURLEncode := true
      port := fromChars (parseUrl url {}).outPort unset
      url
      host := (parseUrl url {}).outAuthority
      path := (parseUrl url {}).outPath
      scheme := (parseUrl url {}).outScheme
      queries := SetMap.ofPairs (parseUrl url {}).outQuery } :=
  foldl_setQuery _

/-- The calls for a URL with a host; without one there are none. -/
theorem setupLocalRequest_eq (url : List Char) :
    (requestFor url).setupLocalRequest order unset =
      if (parseUrl url {}).outAuthority = [] then none
      else some (((requestFor url).decompose unset).urlSets order) := by
  have hhost : ((requestFor url).decompose unset).host = (parseUrl url {}).outAuthority := by
    rw [decompose_eq]
  by_cases hempty : url = []
  · subst hempty
    rfl
  · have hurl : (requestFor url).url ≠ [] := hempty
    have hencode : (requestFor url).bNeedURLEncode = true := rfl
    rw [setupLocalRequest, if_neg hurl, if_pos hencode, generateURL, hhost]

end UrlRequest

/-! ## The port -/

theorem fromChars_of_digits {text : List Char} (hdigits : ∀ c ∈ text, c.isDigit = true)
    (value : UInt32) : fromChars text value =
      if text = [] ∨ 2 ^ 32 ≤ number text then value else UInt32.ofNat (number text) := by
  rw [fromChars, List.takeWhile_eq_self_iff.mpr hdigits]
  rfl

/-- The port of the URL is passed on, whatever the variable holds, exactly when it is there and is
less than the number that stands for none. -/
theorem passes_port_iff {parsed : ParsedURL} (hdigits : ∀ c ∈ parsed.outPort, c.isDigit = true) :
    (∀ unset, (if fromChars parsed.outPort unset < 0xFFFF then
        some (fromChars parsed.outPort unset).toNat else none) = portNumber parsed) ↔
      ∃ n ∈ portNumber parsed, n < 0xFFFF := by
  by_cases hempty : parsed.outPort = []
  · -- the variable is used as it is
    have hnone : portNumber parsed = none := if_pos hempty
    rw [hnone, hempty]
    exact iff_of_false (fun h => absurd (h 0) nofun) nofun
  have hsome : portNumber parsed = some (number parsed.outPort) := if_neg hempty
  have hport : ∀ unset, fromChars parsed.outPort unset =
      if 2 ^ 32 ≤ number parsed.outPort then unset else UInt32.ofNat (number parsed.outPort) := by
    intro unset
    rw [fromChars_of_digits hdigits]
    exact if_congr (or_iff_right hempty) rfl rfl
  rw [hsome]
  constructor
  · intro h
    refine ⟨_, rfl, Nat.lt_of_not_le fun hle => ?_⟩
    -- no port is passed on when the variable holds the number that stands for none
    have hnot : ¬ fromChars parsed.outPort 0xFFFF < 0xFFFF := by
      rw [hport]
      split
      · decide
      · rename_i hfits
        rw [UInt32.lt_iff_toNat_lt, UInt32.toNat_ofNat_of_lt' (Nat.lt_of_not_le hfits)]
        exact Nat.not_lt_of_le hle
    have hnone := h 0xFFFF
    rw [if_neg hnot] at hnone
    cases hnone
  · intro h unset
    obtain ⟨n, hn, hless⟩ := h
    obtain rfl := Option.some.inj hn
    have hfits : number parsed.outPort < 2 ^ 32 := Nat.lt_trans hless (by decide)
    have htoNat : (fromChars parsed.outPort unset).toNat = number parsed.outPort := by
      rw [hport, if_neg (Nat.not_le_of_lt hfits), UInt32.toNat_ofNat_of_lt' hfits]
    have hpassed : fromChars parsed.outPort unset < 0xFFFF := by
      rw [UInt32.lt_iff_toNat_lt, htoNat]
      exact hless
    rw [if_pos hpassed, htoNat]

/-! ## The URL -/

theorem queryItem_inj {p q : List Char × List Char} (hp : '=' ∉ p.1) (hq : '=' ∉ q.1)
    (h : queryItem p = queryItem q) : p = q := by
  have hkey : ∀ {p : List Char × List Char}, '=' ∉ p.1 →
      (queryItem p).takeWhile (fun c => c != '=') = p.1 := by
    intro p hp
    have hne : ∀ c ∈ p.1, (c != '=') = true := fun c hc => bne_iff_ne.mpr fun heq => hp (heq ▸ hc)
    rw [queryItem, List.takeWhile_append_of_pos hne]
    exact List.append_nil p.1
  have hfst : p.1 = q.1 := by rw [← hkey hp, h, hkey hq]
  rw [queryItem, queryItem, hfst] at h
  exact Prod.ext hfst (List.cons.inj (List.append_cancel_left h)).2

/-- The pairs of the query are passed on, in whatever order they are found, exactly when there is no
more than one, and it is a C string. -/
theorem passes_query_iff {parsed : ParsedURL} (hkeys : ∀ param ∈ parsed.outQuery, '=' ∉ param.1) :
    (∀ order : Iteration (List Char) (List Char),
      (order.iterate (SetMap.ofPairs parsed.outQuery)).map
          (fun param => cString (queryItem param)) =
        parsed.outQuery.map queryItem) ↔
      parsed.outQuery.length ≤ 1 ∧ ∀ param ∈ parsed.outQuery, '\x00' ∉ queryItem param := by
  have hstrings : parsed.outQuery.map (fun param => cString (queryItem param)) =
      parsed.outQuery.map queryItem ↔ ∀ param ∈ parsed.outQuery, '\x00' ∉ queryItem param :=
    List.map_inj_left.trans (forall₂_congr fun _ _ => cString_eq_self_iff)
  constructor
  · intro h
    have hlength := SetMap.length_le_one_of_iterate
      (fun p hp q hq => queryItem_inj (hkeys p hp) (hkeys q hq)) h
    refine ⟨hlength, hstrings.mp ?_⟩
    rw [← h Iteration.forward, SetMap.iterate_ofPairs_of_length_le_one _ hlength]
  · intro h order
    rw [SetMap.iterate_ofPairs_of_length_le_one order h.1]
    exact hstrings.mpr h.2

/-- What the calls for a URL with a host pass on. -/
theorem passed_iff (url : List Char) (order : Iteration (List Char) (List Char)) (unset : UInt32) :
    Passed (parseUrl url {}) (((requestFor url).decompose unset).urlSets order) ↔
      ('\x00' ∉ (parseUrl url {}).outScheme ∧ '\x00' ∉ (parseUrl url {}).outAuthority ∧
        '\x00' ∉ (parseUrl url {}).outPath) ∧
      (if fromChars (parseUrl url {}).outPort unset < 0xFFFF then
        some (fromChars (parseUrl url {}).outPort unset).toNat else none) =
          portNumber (parseUrl url {}) ∧
      (order.iterate (SetMap.ofPairs (parseUrl url {}).outQuery)).map
          (fun param => cString (queryItem param)) =
        (parseUrl url {}).outQuery.map queryItem := by
  rw [UrlRequest.decompose_eq, ← cString_eq_self_iff, ← cString_eq_self_iff, ← cString_eq_self_iff]
  constructor
  · intro h
    exact ⟨⟨UrlRequest.stored_scheme.symm.trans h.scheme, UrlRequest.stored_host.symm.trans h.host,
      UrlRequest.stored_path.symm.trans h.path⟩, UrlRequest.stored_port.symm.trans h.port,
      UrlRequest.storedQuery_urlSets.symm.trans h.query⟩
  · intro h
    obtain ⟨⟨hscheme, hhost, hpath⟩, hport, hquery⟩ := h
    exact {
      scheme := UrlRequest.stored_scheme.trans hscheme
      host := UrlRequest.stored_host.trans hhost
      path := UrlRequest.stored_path.trans hpath
      port := UrlRequest.stored_port.trans hport
      query := UrlRequest.storedQuery_urlSets.trans hquery }

/-- Every pair of the query is passed on once. -/
theorem storedQuery_perm (url : List Char) (order : Iteration (List Char) (List Char))
    (unset : UInt32) :
    (storedQuery (((requestFor url).decompose unset).urlSets order)).Perm
      ((parseUrl url {}).outQuery.dedup.map fun param => cString (queryItem param)) := by
  rw [UrlRequest.storedQuery_urlSets, UrlRequest.decompose_eq]
  exact (SetMap.iterate_ofPairs_perm order _).map _

/-- The parts of a URL are passed on, whatever is not specified, exactly when the URL can be
re-encoded. -/
theorem keepsMeaning_iff (url : List Char) : KeepsMeaning url ↔ Reencodable (parseUrl url {}) := by
  have hport := passes_port_iff (outPort_digits url)
  have hquery := passes_query_iff (outQuery_keys url)
  constructor
  · intro h
    have hhost : (parseUrl url {}).outAuthority ≠ [] := by
      intro hempty
      obtain ⟨calls, hsetup, -⟩ := h Iteration.forward 0
      rw [UrlRequest.setupLocalRequest_eq, if_pos hempty] at hsetup
      cases hsetup
    have hpassed : ∀ order unset, Passed (parseUrl url {})
        (((requestFor url).decompose unset).urlSets order) := by
      intro order unset
      obtain ⟨calls, hsetup, hpassed⟩ := h order unset
      rw [UrlRequest.setupLocalRequest_eq, if_neg hhost] at hsetup
      exact Option.some.inj hsetup ▸ hpassed
    obtain ⟨hlength, hitems⟩ :=
      hquery.mp fun order => ((passed_iff url order 0).mp (hpassed order 0)).2.2
    obtain ⟨⟨hscheme, hauthority, hpath⟩, -⟩ :=
      (passed_iff url Iteration.forward 0).mp (hpassed Iteration.forward 0)
    exact {
      host := hhost
      port := hport.mp fun unset =>
        ((passed_iff url Iteration.forward unset).mp (hpassed Iteration.forward unset)).2.1
      query := hlength
      strings := ⟨hscheme, hauthority, hpath, hitems⟩ }
  · intro h order unset
    obtain ⟨hscheme, hauthority, hpath, hitems⟩ := h.strings
    refine ⟨_, (UrlRequest.setupLocalRequest_eq url).trans (if_neg h.host), ?_⟩
    exact (passed_iff url order unset).mpr ⟨⟨hscheme, hauthority, hpath⟩, hport.mpr h.port unset,
      hquery.mpr ⟨h.query, hitems⟩ order⟩

/-- `http://h/` -/
def withoutPort : List Char := ['h', 't', 't', 'p', ':', '/', '/', 'h', '/']

/-- A URL without a port gets one when the variable holds one. -/
theorem not_keepsMeaning : ¬ ∀ url, (urlRegex.fullMatch url).isSome = true → KeepsMeaning url := by
  intro h
  obtain ⟨calls, hsetup, hpassed⟩ := h withoutPort (by decide) Iteration.forward 80
  rw [UrlRequest.setupLocalRequest_eq, if_neg (by decide)] at hsetup
  obtain rfl := Option.some.inj hsetup
  have hport := ((passed_iff withoutPort Iteration.forward 80).mp hpassed).2.1
  exact absurd hport (by decide)

end Utilpp.Http
