import Utilpp.Lib.Regex

/-!
# Taking a URL apart

`ParseUrl` matches a URL with one expression, whose groups are the parts, and takes the query apart
with another one. A result that it is given is changed only when the first expression matches.

The class of the path leaves out the colon, unlike the expression in the RFC that `ParseUrl` refers
to, and the class of the fragment leaves out line terminators. `parseUrl_iff` says that these are
all URLs that are not taken apart again into what they were put together from.
-/

namespace Utilpp.Uri

open Lib Regex

/-! ## The expressions -/

/-- A class `[^...]`. -/
def noneOf (set : List Char) (c : Char) : Bool := !set.contains c

/-- The class `.` -/
def dot : Char → Bool := noneOf ['\n', '\r']

/-- `(?:([^:\/?#]+)://)?` -/
def schemeRegex : Regex Char :=
  opt (seq (group 1 (plus (noneOf [':', '/', '?', '#']))) (lit [':', '/', '/']))

/-- `(?:([^:\/?#]*)(?::([0-9]+))?)?` -/
def authorityRegex : Regex Char :=
  opt (seq (group 2 (many (noneOf [':', '/', '?', '#'])))
    (opt (seq (sym ':') (group 3 (plus Char.isDigit)))))

/-- `([^:?#]*)` -/
def pathRegex : Regex Char := group 4 (many (noneOf [':', '?', '#']))

/-- `(?:\?([^#]*))?` -/
def queryRegex : Regex Char := opt (seq (sym '?') (group 5 (many (noneOf ['#']))))

/-- `(?:#(.*))?` -/
def fragmentRegex : Regex Char := opt (seq (sym '#') (group 6 (many dot)))

/-- `url_regex`; `regex_match` always begins at the beginning, where `^` matches. -/
def urlRegex : Regex Char :=
  seq schemeRegex (seq authorityRegex (seq pathRegex (seq queryRegex fragmentRegex)))

/-- `param_regex`, which is `([^&#=]+)(?:=([^&#]*))?`. -/
def paramRegex : Regex Char :=
  seq (group 1 (plus (noneOf ['&', '#', '='])))
    (opt (seq (sym '=') (group 2 (many (noneOf ['&', '#'])))))

/-! ## The parts -/

/-- `ParsedURL_t` -/
structure ParsedURL where
  outScheme : List Char := []
  outAuthority : List Char := []
  outPort : List Char := []
  outPath : List Char := []
  outQuery : List (List Char × List Char) := []
  outFragment : List Char := []
  deriving DecidableEq, Repr

/-- The view of a group, which is empty when the group has not taken part in the match. -/
def view (caps : Captures Char) (n : Nat) : List Char := (caps n).getD []

/-- The keys and the values that the matches of `param_regex` have found. -/
def params (queryStr : List Char) : List (List Char × List Char) :=
  (paramRegex.allMatches queryStr).map fun m => (view m 1, view m 2)

/-- `ParseUrl`, which is given the result that it fills in. -/
def parseUrl (inurl : List Char) (parsed : ParsedURL) : ParsedURL :=
  match urlRegex.fullMatch inurl with
  | none => parsed
  | some caps =>
      { outScheme := view caps 1
        outAuthority := view caps 2
        outPort := view caps 3
        outPath := view caps 4
        outQuery := parsed.outQuery ++ params (view caps 5)
        outFragment := view caps 6 }

/-! ## URLs -/

/-- A key and a value as they stand in a query. -/
def item (param : List Char × List Char) : List Char := param.1 ++ marked '=' (some param.2)

/-- The pairs behind the first one. -/
def moreItems (params : List (List Char × List Char)) : List Char :=
  params.flatMap fun param => '&' :: item param

/-- The pairs of a query, with an ampersand between them. -/
def queryText : List (List Char × List Char) → List Char
  | [] => []
  | param :: params => item param ++ moreItems params

/-- The keys are not empty, and no key and no value has a symbol in it that ends it. -/
def Pairs (params : List (List Char × List Char)) : Prop :=
  ∀ param ∈ params, (param.1 ≠ [] ∧ ∀ c ∈ param.1, noneOf ['&', '#', '='] c = true) ∧
    ∀ c ∈ param.2, noneOf ['&', '#'] c = true

/-- A URL as it is put together. -/
structure Url where
  scheme : List Char
  host : List Char
  port : Option (List Char)
  path : List Char
  query : Option (List (List Char × List Char))
  fragment : Option (List Char)
  scheme_ne : scheme ≠ []
  scheme_chars : ∀ c ∈ scheme, noneOf [':', '/', '?', '#'] c = true
  host_chars : ∀ c ∈ host, noneOf [':', '/', '?', '#'] c = true
  port_digits : ∀ digits ∈ port, digits ≠ [] ∧ ∀ c ∈ digits, c.isDigit = true
  path_rooted : ∀ c ∈ path.head?, c = '/'
  path_chars : ∀ c ∈ path, noneOf ['?', '#'] c = true
  query_pairs : ∀ params ∈ query, Pairs params

namespace Url

variable (u : Url)

/-- The text of the URL. -/
def assemble : List Char :=
  (u.scheme ++ [':', '/', '/']) ++ ((u.host ++ marked ':' u.port) ++
    (u.path ++ (marked '?' (u.query.map queryText) ++ marked '#' u.fragment)))

/-- What `ParseUrl` should find. -/
def parts : ParsedURL :=
  { outScheme := u.scheme
    outAuthority := u.host
    outPort := u.port.getD []
    outPath := u.path
    outQuery := u.query.getD []
    outFragment := u.fragment.getD [] }

end Url

/-! ## Classes -/

@[simp] theorem noneOf_iff {set : List Char} {c : Char} : noneOf set c = true ↔ c ∉ set := by
  simp [noneOf]

theorem noneOf_of_subset {set sub : List Char} {c : Char} (h : noneOf set c = true)
    (hsub : sub.all set.contains = true) : noneOf sub c = true := by
  refine noneOf_iff.mpr fun hmem => noneOf_iff.mp h ?_
  exact List.contains_iff_mem.mp (List.all_eq_true.mp hsub c hmem)

theorem stops_of_noneOf {p : Char → Bool} {set s : List Char} (h : Stops (noneOf set) s)
    (hp : set.all (fun c => !p c) = true) : Stops p s := by
  intro c hc
  have hset : ¬ noneOf set c = true := Bool.not_eq_true _ ▸ h c hc
  have hnot := List.all_eq_true.mp hp c (not_not.mp (noneOf_iff.not.mp hset))
  exact Bool.not_eq_true' (p c) ▸ hnot

/-! ## What the groups are made of -/

/-- What the groups of the port, of the path and of the fragment are made of. -/
def groupClass : Nat → Char → Bool
  | 3 => Char.isDigit
  | 4 => noneOf [':', '?', '#']
  | 6 => dot
  | _ => fun _ => true

theorem urlRegex_groups : urlRegex.GroupsWithin groupClass :=
  ⟨⟨⟨⟨fun _ _ => rfl, fun _ _ => rfl⟩, trivial, trivial⟩, trivial, trivial, trivial, trivial⟩,
    ⟨⟨fun _ _ => rfl, trivial⟩, trivial, ⟨fun _ hc => hc, fun _ hc => hc⟩, trivial, trivial⟩,
    ⟨fun _ hc => hc, trivial⟩, ⟨trivial, fun _ _ => rfl, trivial⟩, trivial, fun _ hc => hc, trivial⟩

/-- What the group of the key is made of. -/
def paramClass : Nat → Char → Bool
  | 1 => noneOf ['&', '#', '=']
  | _ => fun _ => true

theorem paramRegex_groups : paramRegex.GroupsWithin paramClass :=
  ⟨⟨⟨fun _ hc => hc, fun _ hc => hc⟩, trivial, trivial⟩, trivial, fun _ _ => rfl, trivial⟩

theorem groupClass_of_fullMatch {inurl : List Char} {caps : Captures Char}
    (h : urlRegex.fullMatch inurl = some caps) : ∀ n, ∀ c ∈ view caps n, groupClass n c = true :=
  (fullMatch_sound h).groups urlRegex_groups fun _ => nofun

/-- The port consists of digits. -/
theorem outPort_digits (inurl : List Char) :
    ∀ c ∈ (parseUrl inurl {}).outPort, c.isDigit = true := by
  unfold parseUrl
  split
  · exact nofun
  · rename_i caps hmatch
    exact groupClass_of_fullMatch hmatch 3

/-- A key ends where an equals sign stands. -/
theorem outQuery_keys (inurl : List Char) :
    ∀ param ∈ (parseUrl inurl {}).outQuery, '=' ∉ param.1 := by
  unfold parseUrl
  split
  · exact nofun
  · intro param hparam heq
    obtain ⟨m, hm, rfl⟩ := List.mem_map.mp (List.nil_append _ ▸ hparam)
    obtain ⟨word, hparses⟩ := allMatches_sound hm
    have hkey := hparses.groups paramRegex_groups (fun _ => nofun) 1 '=' heq
    exact noneOf_iff.mp hkey (by decide)

/-! ## The query -/

variable {β : Type*} {rest : List Char} {caps : Captures Char}

/-- A pair in front of the next one. -/
theorem takes_item {param : List Char × List Char} (hne : param.1 ≠ [])
    (hkey : ∀ c ∈ param.1, noneOf ['&', '#', '='] c = true)
    (hvalue : ∀ c ∈ param.2, noneOf ['&', '#'] c = true) (hrest : Stops (noneOf ['&', '#']) rest)
    (heq : Stops (fun d => d == '=') rest) :
    Takes β paramRegex (item param) rest noCaptures
      (Function.update (Function.update noCaptures 1 (some param.1)) 2 (some param.2)) := by
  refine Takes.append (takes_plus hne hkey (stops_cons rfl)).group
    (takes_opt_marked rfl heq fun word hword => ?_)
  rw [← Option.some.inj hword]
  exact takes_many hvalue hrest

theorem stops_moreItems {p : Char → Bool} (hp : p '&' = false)
    {params : List (List Char × List Char)} : Stops p (moreItems params) := by
  cases params with
  | nil => exact stops_nil
  | cons param params => exact stops_cons hp

theorem search_item {param : List Char × List Char} {more : List (List Char × List Char)}
    (h : Pairs (param :: more)) :
    paramRegex.search (item param ++ moreItems more) =
      some (Function.update (Function.update noCaptures 1 (some param.1)) 2 (some param.2),
        moreItems more) := by
  obtain ⟨⟨⟨hne, hkey⟩, hvalue⟩, -⟩ := List.forall_mem_cons.mp h
  exact (takes_item hne hkey hvalue (stops_moreItems rfl) (stops_moreItems rfl)).search

/-- Behind a pair the search goes over the ampersand. -/
theorem search_moreItems {param : List Char × List Char} {more : List (List Char × List Char)} :
    paramRegex.search (moreItems (param :: more)) =
      paramRegex.search (item param ++ moreItems more) :=
  search_cons_of_none rfl

theorem length_moreItems_lt (param : List Char × List Char)
    (more : List (List Char × List Char)) :
    (moreItems more).length < (item param ++ moreItems more).length := by
  have hpos : 0 < (item param).length :=
    List.length_pos_iff.mpr (List.append_ne_nil_of_right_ne_nil _ (List.cons_ne_nil _ _))
  rw [List.length_append]
  omega

theorem params_moreItems {more : List (List Char × List Char)} (h : Pairs more) :
    params (moreItems more) = more := by
  induction more with
  | nil => exact congrArg (List.map _) (allMatches_of_none rfl)
  | cons param more ih =>
      have hless := length_moreItems_lt param more
      have hmatches := allMatches_of_search (search_moreItems.trans (search_item h))
        (Nat.lt_succ_of_lt hless)
      rw [params, hmatches, List.map_cons, ← params, ih (List.forall_mem_cons.mp h).2]
      rfl

/-- The pairs of a query are found in their order. -/
theorem params_queryText {pairs : List (List Char × List Char)} (h : Pairs pairs) :
    params (queryText pairs) = pairs := by
  cases pairs with
  | nil => exact congrArg (List.map _) (allMatches_of_none rfl)
  | cons param more =>
      have hmatches := allMatches_of_search (search_item h) (length_moreItems_lt param more)
      rw [queryText, params, hmatches, List.map_cons, ← params,
        params_moreItems (List.forall_mem_cons.mp h).2]
      rfl

/-! ## The URL -/

namespace Url

variable (u : Url)

/-- The captures of a URL, with what the group of the host has captured. -/
def captures (host : Option (List Char)) : Captures Char :=
  Function.update (Function.update (Function.update (Function.update (Function.update
    (Function.update noCaptures 1 (some u.scheme)) 2 host) 3 u.port) 4 (some u.path))
    5 (u.query.map queryText)) 6 u.fragment

theorem takes_scheme : Takes β schemeRegex (u.scheme ++ [':', '/', '/']) rest caps
    (Function.update caps 1 (some u.scheme)) := by
  have hscheme : Takes β (plus (noneOf [':', '/', '?', '#'])) u.scheme ([':', '/', '/'] ++ rest)
      caps caps := takes_plus u.scheme_ne u.scheme_chars (stops_cons rfl)
  exact (hscheme.group.append takes_lit).opt (List.append_ne_nil_of_left_ne_nil u.scheme_ne _)

/-- The group of the host does not take part when there is neither a host nor a port. -/
theorem takes_authority (hhost : caps 2 = none) (hport : caps 3 = none)
    (hrest : Stops (noneOf ['/', '?', '#']) rest) :
    ∃ host : Option (List Char), host.getD [] = u.host ∧
      Takes β authorityRegex (u.host ++ marked ':' u.port) rest caps
        (Function.update (Function.update caps 2 host) 3 u.port) := by
  have hcolon : Stops (fun d => d == ':') rest := stops_of_noneOf hrest rfl
  have hends : Stops (noneOf [':', '/', '?', '#']) rest := stops_of_noneOf hrest rfl
  by_cases hempty : u.host ++ marked ':' u.port = []
  · obtain ⟨hnohost, hmarked⟩ := List.append_eq_nil_iff.mp hempty
    have hnoport : u.port = none := marked_eq_nil_iff.mp hmarked
    have hupdate : Function.update (Function.update caps 2 none) 3 none = caps := by
      rw [← hhost, Function.update_eq_self, ← hport.trans hhost.symm, Function.update_eq_self]
    refine ⟨none, hnohost.symm, ?_⟩
    rw [hempty, hnoport, hupdate]
    refine takes_opt_of_none fun k => ?_
    -- the class takes no symbol and the part of the port none either
    rw [run, run, run, runMany_of_stops hends, sym, run_opt_of_stops hcolon]
    exact if_pos rfl
  · have hgroup : Takes β (group 2 (many (noneOf [':', '/', '?', '#']))) u.host
        (marked ':' u.port ++ rest) caps (Function.update caps 2 (some u.host)) :=
      (takes_many u.host_chars (stops_append (stops_marked rfl) hends)).group
    refine ⟨some u.host, rfl, (hgroup.append (takes_opt_marked ?_ hcolon ?_)).opt hempty⟩
    · exact (Function.update_of_ne (by decide) _ _).trans hport
    · intro digits hdigits
      obtain ⟨hne, hall⟩ := u.port_digits digits hdigits
      exact takes_plus hne hall (stops_of_noneOf hrest rfl)

theorem takes_path (hcolon : ':' ∉ u.path) (hrest : Stops (noneOf [':', '?', '#']) rest) :
    Takes β pathRegex u.path rest caps (Function.update caps 4 (some u.path)) := by
  refine (takes_many (fun c hc => ?_) hrest).group
  have hchars := noneOf_iff.mp (u.path_chars c hc)
  refine noneOf_iff.mpr (List.not_mem_cons_of_ne_of_not_mem ?_ hchars)
  exact fun heq => hcolon (heq ▸ hc)

theorem item_chars {param : List Char × List Char}
    (h : (param.1 ≠ [] ∧ ∀ c ∈ param.1, noneOf ['&', '#', '='] c = true) ∧
      ∀ c ∈ param.2, noneOf ['&', '#'] c = true) :
    ∀ c ∈ item param, noneOf ['#'] c = true := by
  refine List.forall_mem_append.mpr ⟨fun c hc => ?_, List.forall_mem_cons.mpr ⟨rfl, fun c hc => ?_⟩⟩
  · exact noneOf_of_subset (h.1.2 c hc) rfl
  · exact noneOf_of_subset (h.2 c hc) rfl

theorem queryText_chars {params : List (List Char × List Char)} (h : Pairs params) :
    ∀ c ∈ queryText params, noneOf ['#'] c = true := by
  cases params with
  | nil => exact nofun
  | cons param more =>
      obtain ⟨hparam, hmore⟩ := List.forall_mem_cons.mp h
      refine List.forall_mem_append.mpr ⟨item_chars hparam, fun c hc => ?_⟩
      obtain ⟨param, hmem, hc⟩ := List.mem_flatMap.mp hc
      rcases List.mem_cons.mp hc with rfl | hc
      · rfl
      · exact item_chars (hmore param hmem) c hc

theorem takes_query (hnone : caps 5 = none) (hrest : Stops (noneOf ['#']) rest)
    (hmark : Stops (fun d => d == '?') rest) :
    Takes β queryRegex (marked '?' (u.query.map queryText)) rest caps
      (Function.update caps 5 (u.query.map queryText)) := by
  refine takes_opt_marked hnone hmark fun text htext => ?_
  obtain ⟨params, hparams, rfl⟩ := Option.map_eq_some_iff.mp htext
  exact takes_many (queryText_chars (u.query_pairs params hparams)) hrest

theorem takes_fragment (hnone : caps 6 = none)
    (hdot : ∀ fragment ∈ u.fragment, ∀ c ∈ fragment, dot c = true) :
    Takes β fragmentRegex (marked '#' u.fragment) [] caps (Function.update caps 6 u.fragment) :=
  takes_opt_marked hnone stops_nil fun fragment hfragment =>
    takes_many (hdot fragment hfragment) stops_nil

/-- The parts that the first expression finds. -/
theorem fullMatch_assemble (hcolon : ':' ∉ u.path)
    (hdot : ∀ fragment ∈ u.fragment, ∀ c ∈ fragment, dot c = true) :
    ∃ host : Option (List Char), host.getD [] = u.host ∧
      urlRegex.fullMatch u.assemble = some (u.captures host) := by
  have hfragment : ∀ {p : Char → Bool}, p '#' = false → Stops p (marked '#' u.fragment ++ []) :=
    fun hp => stops_append (stops_marked hp) stops_nil
  have hquery : ∀ {p : Char → Bool}, p '?' = false → p '#' = false →
      Stops p (marked '?' (u.query.map queryText) ++ marked '#' u.fragment ++ []) := by
    intro p hp hp'
    rw [List.append_assoc]
    exact stops_append (stops_marked hp) (hfragment hp')
  have hpath : Stops (noneOf ['/', '?', '#']) (u.path ++
      (marked '?' (u.query.map queryText) ++ marked '#' u.fragment) ++ []) := by
    rw [List.append_assoc]
    refine stops_append (fun c hc => ?_) (hquery rfl rfl)
    rw [u.path_rooted c hc]
    rfl
  obtain ⟨host, hhost, hauthority⟩ := @takes_authority (Captures Char) _
    (Function.update noCaptures 1 (some u.scheme)) u rfl rfl hpath
  have hall : Takes (Captures Char) urlRegex u.assemble [] noCaptures (u.captures host) := by
    refine u.takes_scheme.append (hauthority.append ((u.takes_path hcolon (hquery rfl rfl)).append
      ((u.takes_query ?_ (hfragment rfl) (hfragment rfl)).append (u.takes_fragment ?_ hdot))))
    · rfl
    · rfl
  exact ⟨host, hhost, hall.fullMatch⟩

theorem parseUrl_eq_parts (hcolon : ':' ∉ u.path)
    (hdot : ∀ fragment ∈ u.fragment, ∀ c ∈ fragment, dot c = true) :
    parseUrl u.assemble {} = u.parts := by
  obtain ⟨host, hhost, hmatch⟩ := u.fullMatch_assemble hcolon hdot
  have hquery : params (view (u.captures host) 5) = u.query.getD [] := by
    show params ((u.query.map queryText).getD []) = _
    cases hq : u.query with
    | none => exact congrArg (List.map _) (allMatches_of_none rfl)
    | some pairs => exact params_queryText (u.query_pairs pairs hq)
  rw [parseUrl, hmatch]
  show ParsedURL.mk u.scheme (host.getD []) (u.port.getD []) u.path
    (params (view (u.captures host) 5)) (u.fragment.getD []) = u.parts
  rw [hhost, hquery]
  rfl

/-- A URL is taken apart into its parts, and the result is not left as it was, exactly when there is
no colon in the path and no line terminator in the fragment. -/
theorem parseUrl_iff : (parseUrl u.assemble {} = u.parts ∧ parseUrl u.assemble {} ≠ {}) ↔
    ':' ∉ u.path ∧ ∀ fragment ∈ u.fragment, ∀ c ∈ fragment, dot c = true := by
  constructor
  · rintro ⟨hparts, hne⟩
    cases hmatch : urlRegex.fullMatch u.assemble with
    | none =>
        rw [parseUrl, hmatch] at hne
        exact absurd rfl hne
    | some caps =>
        rw [parseUrl, hmatch] at hparts
        obtain ⟨-, -, -, hpath, -, hfragment⟩ := ParsedURL.mk.inj hparts
        have hgroups := groupClass_of_fullMatch hmatch
        constructor
        · intro hcolon
          exact noneOf_iff.mp (hgroups 4 ':' (hpath.symm ▸ hcolon)) (List.mem_cons_self ..)
        · intro fragment hmem c hc
          refine hgroups 6 c (hfragment.symm ▸ ?_)
          rw [hmem]
          exact hc
  · rintro ⟨hcolon, hdot⟩
    have hparts := u.parseUrl_eq_parts hcolon hdot
    refine ⟨hparts, fun hempty => u.scheme_ne ?_⟩
    exact congrArg ParsedURL.outScheme (hparts.symm.trans hempty)

/-- `http://h/a:b` -/
def colonInPath : Url where
  scheme := ['h', 't', 't', 'p']
  host := ['h']
  port := none
  path := ['/', 'a', ':', 'b']
  query := none
  fragment := none
  scheme_ne := nofun
  scheme_chars := List.all_eq_true.mp rfl
  host_chars := List.all_eq_true.mp rfl
  port_digits := nofun
  path_rooted := fun _ hc => (Option.some.inj hc).symm
  path_chars := List.all_eq_true.mp rfl
  query_pairs := nofun

/-- A URL with a colon in its path leaves the result as it was. -/
theorem not_parseUrl :
    ¬ ∀ u : Url, parseUrl u.assemble {} = u.parts ∧ parseUrl u.assemble {} ≠ {} :=
  fun h => (h colonInPath).2 (by decide)

end Url

end Utilpp.Uri
