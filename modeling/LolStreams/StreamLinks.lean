import LolStreams.PercentEncoding
import LolStreams.Dispatch

/-! The name of a stream on its way through URLs: into the address bar and back when the page
is loaded from there, and into the requests for its record. Texts of URLs are octets; the
decoded path of `$location` is a string. -/
namespace LolStreams

open UrlParsing PercentEncoding

/-! ### Encoding -/

/-- Letters, digits and `-_.!~*'()`. -/
def unreserved (c : UInt8) : Bool :=
  (48 ≤ c ∧ c ≤ 57) ∨ (65 ≤ c ∧ c ≤ 90) ∨ (97 ≤ c ∧ c ≤ 122) ∨
    c ∈ [45, 95, 46, 33, 126, 42, 39, 40, 41]

def encodeURIComponent (x : Octets) : Octets := encode unreserved x

/-- `encodeURIComponent`, and then some of the escapes taken back one after the other. -/
def encodeRestoring (restored : List UInt8) (x : Octets) : Octets :=
  restored.foldl (fun y c => restore c y) (encodeURIComponent x)

/-- Of `angular.js`, with `@`, `:`, `$`, `,`, `;`, `&`, `=` and `+` taken back. -/
def encodeUriSegment (x : Octets) : Octets := encodeRestoring [64, 58, 36, 44, 59, 38, 61, 43] x

/-- Of `angular-resource.js`, which leaves the semicolon escaped. -/
def Resource.encodeUriSegment (x : Octets) : Octets :=
  encodeRestoring [64, 58, 36, 44, 38, 61, 43] x

def encodePath (path : Octets) : Octets :=
  [slash].intercalate ((path.splitOn slash).map encodeUriSegment)

/-! ### The router -/

/-- A pattern that is one segment of text, with or without `:name` after it. -/
structure UrlMatcher where
  segment : String
  hasName : Bool

namespace UrlMatcher

def home : UrlMatcher := ⟨"/", false⟩

def stream : UrlMatcher := ⟨"/", true⟩

/-- The parameter of the path, if it matches. -/
def exec (m : UrlMatcher) (path : String) : Option (Option String) :=
  if m.segment.toList.isPrefixOf path.toList then
    let rest := path.toList.drop m.segment.toList.length
    if m.hasName then
      if '/' ∈ rest then none else some (some (String.ofList rest))
    else if rest = [] then some none
    else none
  else none

def format (m : UrlMatcher) (name : Option String) : Octets :=
  match m.hasName, name with
  | true, some name => octets m.segment ++ encodeURIComponent (octets name)
  | _, _ => octets m.segment

end UrlMatcher

/-- The state for a path, the home state if there is no name. What no rule matches is sent
to `/`. -/
def update (path : String) : Option String :=
  match UrlMatcher.home.exec path with
  | some _ => none
  | none => (UrlMatcher.stream.exec path).bind id

/-! ### The address bar -/

/-- `/^([^\?#]*)/` -/
def pathPart (url : Octets) : Octets := url.takeWhile fun c => c ≠ question && c ≠ sharp

def withSlash (path : String) : String := if path.toList.head? = some '/' then path else "/" ++ path

/-- The path after `$location.url(url)`. -/
def setUrl (path : String) (url : Octets) : Option String :=
  if pathPart url = [] then some path else (decodeURIComponent (pathPart url)).map withSlash

/-- What stands after the hash in the address bar. There is no search and no hash. -/
def address (path : String) : Octets := encodePath (octets path)

def singleDot (x : Octets) : Bool := x = [46] ∨ x = [37, 50, 69] ∨ x = [37, 50, 101]

def doubleDot (x : Octets) : Bool :=
  x = [46, 46] ∨ ∃ e ∈ [[37, 50, 69], [37, 50, 101]], x = 46 :: e ∨ x = e ++ [46] ∨
    ∃ f ∈ [[37, 50, 69], [37, 50, 101]], x = e ++ f

/-- What the browser does to the segments of a path. -/
def resolveSegments (kept : List Octets) : List Octets → List Octets
  | [] => kept.reverse
  | [x] =>
    if doubleDot x then kept.tail.reverse ++ [[]]
    else if singleDot x then kept.reverse ++ [[]]
    else kept.reverse ++ [x]
  | x :: xs =>
    if doubleDot x then resolveSegments kept.tail xs
    else if singleDot x then resolveSegments kept xs
    else resolveSegments (x :: kept) xs

/-- `urlResolve(url).pathname` for an absolute path that does not begin with two slashes and all
of whose characters may stand in one. -/
def pathname (url : Octets) : Octets :=
  slash :: [slash].intercalate (resolveSegments [] ((pathPart url).tail.splitOn slash))

/-- The path that `$location` reads from what stands after the hash. -/
def parseAppUrl (url : Octets) : Option String :=
  let path :=
    if url.head? = some slash then decodeURIComponent (pathname url)
    else decodeURIComponent (pathname (slash :: url)).tail
  path.map fun path => if path = "" then path else withSlash path

/-- `/^\/[A-Z]:(\/.*)/` -/
def windowsFilePath : List Char → Option (List Char)
  | '/' :: c :: ':' :: '/' :: rest =>
    if c.isUpper then
      some ('/' :: rest.takeWhile fun d => d ∉ ['\n', '\r', '\u2028', '\u2029'])
    else none
  | _ => none

def removeWindowsDriveName (path : String) (url : Octets) : String :=
  if (windowsFilePath (url.map fun c => Char.ofNat c.toNat)).isSome then path
  else
    match windowsFilePath path.toList with
    | some rest => String.ofList rest
    | none => path

/-- The state of a page that is loaded with an address. -/
def load (url : Octets) : Option (Option String) :=
  (parseAppUrl url).map fun path => update (removeWindowsDriveName path url)

/-! ### Showing a stream -/

/-- The path that is left once the rules have sent what they do not know to `/`. -/
def settled (path : String) : String := if (update path).isSome then path else "/"

/-- `$state.go("stream", {name: name})`: the path and the state in which the page is left. The
rules are asked only if the address changes. -/
def goStream (current name : String) : Option (String × Option String) :=
  (setUrl current (UrlMatcher.stream.format (some name))).map fun path =>
    if address path = address current then (path, some name) else (settled path, update path)

/-! ### The request for a record -/

/-- `\w` -/
def isWord (c : UInt8) : Bool :=
  (48 ≤ c ∧ c ≤ 57) ∨ (65 ≤ c ∧ c ≤ 90) ∨ (97 ≤ c ∧ c ≤ 122) ∨ c = 95

/-- `/\w+($|\?)/` at the beginning. -/
def endsInWord (x : Octets) : Bool :=
  x.takeWhile isWord ≠ [] ∧ ((x.dropWhile isWord).head? = none ∨
    (x.dropWhile isWord).head? = some question)

/-- `url.replace(/\/\.(?=\w+($|\?))/, '.')` -/
def collapseDot : Octets → Octets
  | c :: d :: x =>
    if c = slash ∧ d = 46 ∧ endsInWord x then d :: x else c :: collapseDot (d :: x)
  | x => x

/-- `url.replace(/\/\\\./, '/.')` -/
def unescapeDot : Octets → Octets
  | c :: d :: e :: x =>
    if c = slash ∧ d = 92 ∧ e = 46 then c :: e :: x else c :: unescapeDot (d :: e :: x)
  | x => x

def stripTrailingSlashes (url : Octets) : Octets :=
  if url.rdropWhile (· = slash) = [] then [slash] else url.rdropWhile (· = slash)

/-- The URL of `/streams/:name`. -/
def setUrlParams (name : Option String) : Octets :=
  let url :=
    match name with
    | some name => octets "/streams/" ++ Resource.encodeUriSegment (octets name)
    | none => octets "/streams/"
  unescapeDot (collapseDot (stripTrailingSlashes url))

/-- The path in which the request arrives, decoded and split at its slashes. -/
def requestPath (name : Option String) : Option (List String) :=
  ((decode (pathname (setUrlParams name)).tail).splitOn slash).mapM readUtf8

/-- What answers `Stream.get({name: name})`. -/
def recordHandler (name : String) : Option (Handler × Option String) :=
  (requestPath (some name)).bind (dispatch "GET")

/-! ### Encoding and decoding -/

theorem encodeUriSegment_eq (x : Octets) :
    encodeUriSegment x =
      encode (fun c => unreserved c || [64, 58, 36, 44, 59, 38, 61, 43].contains c) x :=
  foldl_restore_encode rfl (by decide) x

theorem resource_encodeUriSegment_eq (x : Octets) :
    Resource.encodeUriSegment x =
      encode (fun c => unreserved c || [64, 58, 36, 44, 38, 61, 43].contains c) x :=
  foldl_restore_encode rfl (by decide) x

/-- What stays as it is in an address. -/
def inAddress (c : UInt8) : Bool :=
  (unreserved c || [64, 58, 36, 44, 59, 38, 61, 43].contains c) || c == slash

theorem address_eq (path : String) : address path = encode inAddress (octets path) := by
  have hpieces : ∀ x ∈ (octets path).splitOn slash, slash ∉ x := by
    intro x hx
    exact not_mem_of_mem_pieces (x := some (octets path)) hx
  have hsegments : encodeUriSegment =
      encode fun c => unreserved c || [64, 58, 36, 44, 59, 38, 61, 43].contains c :=
    funext encodeUriSegment_eq
  rw [address, encodePath, hsegments, intercalate_map_encode hpieces,
    List.intercalate_splitOn]
  rfl

/-! ### Paths -/

theorem octets_empty : octets "" = [] := by
  rw [octets_eq_flatMap]
  rfl

theorem octets_root : octets "/" = [slash] := by
  rw [octets_eq_flatMap]
  rfl

theorem octets_dot : octets "." = [46] := by
  rw [octets_eq_flatMap]
  rfl

theorem octets_dots : octets ".." = [46, 46] := by
  rw [octets_eq_flatMap]
  rfl

theorem octets_slash (name : String) : octets ("/" ++ name) = slash :: octets name := by
  rw [octets_append, octets_root, List.singleton_append]

theorem slash_notMem_octets {name : String} (h : '/' ∉ name.toList) : slash ∉ octets name :=
  fun hm => h (mem_toList_of_mem_octets (c := slash) (by decide) hm)

theorem decode_path {plain : UInt8 → Bool} (hp : plain percent = false) (name : String) :
    decodeURIComponent (slash :: encode plain (octets name)) = some ("/" ++ name) := by
  have hne : slash ≠ percent := by decide
  rw [decodeURIComponent, wellEscaped_cons hne, if_pos (wellEscaped_encode hp _),
    decode_cons hne, decode_encode hp, ← octets_slash, readUtf8_octets]

theorem withSlash_slash (name : String) : withSlash ("/" ++ name) = "/" ++ name := by
  rw [withSlash, String.toList_append]
  rfl

theorem pathPart_encode {plain : UInt8 → Bool} (hq : plain question = false)
    (hs : plain sharp = false) (x : Octets) :
    pathPart (slash :: encode plain x) = slash :: encode plain x := by
  have hquestion : question ∉ encode plain x :=
    not_mem_encode (by decide) (by decide) fun h => by simp [hq] at h
  have hsharp : sharp ∉ encode plain x :=
    not_mem_encode (by decide) (by decide) fun h => by simp [hs] at h
  rw [pathPart, List.takeWhile_eq_self_iff]
  intro c hc
  rcases List.mem_cons.mp hc with rfl | hc
  · decide
  · have hq' : c ≠ question := fun he => hquestion (he ▸ hc)
    have hs' : c ≠ sharp := fun he => hsharp (he ▸ hc)
    simp [hq', hs']

theorem splitOn_of_notMem {c : UInt8} {x : Octets} (h : c ∉ x) : x.splitOn c = [x] := by
  have hpieces : ∀ y ∈ [x], c ∉ y := by simpa using h
  have hone := List.splitOn_intercalate c hpieces (List.cons_ne_nil x [])
  rwa [List.intercalate_singleton] at hone

theorem update_slash (name : String) :
    update ("/" ++ name) = if name = "" ∨ '/' ∈ name.toList then none else some name := by
  have hprefix : (['/'] : List Char).isPrefixOf ('/' :: name.toList) = true := by simp
  have hlist : ("/" ++ name).toList = '/' :: name.toList := by
    rw [String.toList_append]
    rfl
  have hsegment : "/".toList = ['/'] := rfl
  by_cases hempty : name = ""
  · subst hempty
    rfl
  · have hrest : name.toList ≠ [] := by simpa using hempty
    simp only [update, UrlMatcher.exec, UrlMatcher.home, UrlMatcher.stream, hlist, hsegment,
      hprefix, if_true, List.length_singleton, List.drop_succ_cons, List.drop_zero,
      Bool.false_eq_true, if_false, hrest, hempty, false_or]
    split_ifs with hslash
    · rfl
    · rw [String.ofList_toList]
      rfl

/-! ### Dots -/

theorem decode_of_singleDot {x : Octets} (h : singleDot x = true) : decode x = octets "." := by
  rw [singleDot, decide_eq_true_eq] at h
  rw [octets_dot]
  rcases h with rfl | rfl | rfl
  all_goals rfl

theorem decode_of_doubleDot {x : Octets} (h : doubleDot x = true) : decode x = octets ".." := by
  simp only [doubleDot, List.mem_cons, List.not_mem_nil, or_false, exists_eq_or_imp,
    exists_eq_left, decide_eq_true_eq] at h
  rw [octets_dots]
  rcases h with rfl | (rfl | rfl | rfl | rfl) | (rfl | rfl | rfl | rfl)
  all_goals rfl

section

variable {plain : UInt8 → Bool} (hp : plain percent = false) (hdot : plain 46 = true)
include hp hdot

theorem singleDot_encode (name : String) :
    singleDot (encode plain (octets name)) = true ↔ name = "." := by
  constructor
  · intro h
    have hdecode := decode_of_singleDot h
    rw [decode_encode hp] at hdecode
    exact octets_injective hdecode
  · rintro rfl
    rw [octets_dot, encode_of_plain (by simpa using hdot)]
    rfl

theorem doubleDot_encode (name : String) :
    doubleDot (encode plain (octets name)) = true ↔ name = ".." := by
  constructor
  · intro h
    have hdecode := decode_of_doubleDot h
    rw [decode_encode hp] at hdecode
    exact octets_injective hdecode
  · rintro rfl
    rw [octets_dots, encode_of_plain (by simpa using hdot)]
    rfl

end

/-! ### The address bar -/

/-- A path is pushed into the address bar and read back from it. -/
theorem setUrl_format (current name : String) :
    setUrl current (UrlMatcher.stream.format (some name)) = some ("/" ++ name) := by
  have hformat : UrlMatcher.stream.format (some name) =
      slash :: encode unreserved (octets name) := by
    simp only [UrlMatcher.format, UrlMatcher.stream, octets_root]
    rfl
  rw [hformat, setUrl, pathPart_encode (by decide) (by decide), if_neg (List.cons_ne_nil _ _),
    decode_path (by decide), Option.map_some, withSlash_slash]

theorem address_injective : Function.Injective address := by
  intro path path' h
  rw [address_eq, address_eq] at h
  have hdecode := congrArg decode h
  rw [decode_encode (by decide), decode_encode (by decide)] at hdecode
  exact octets_injective hdecode

theorem windowsFilePath_of_notMem {l : List Char} (h : '/' ∉ l) :
    windowsFilePath ('/' :: l) = none := by
  unfold windowsFilePath
  split
  · next c rest heq =>
    rw [(List.cons.inj heq).2] at h
    simp at h
  · rfl

/-- A path in one segment has no drive name. -/
theorem removeWindowsDriveName_of_notMem (name : String) (h : '/' ∉ name.toList) {x : Octets}
    (hx : slash ∉ x) :
    removeWindowsDriveName ("/" ++ name) (slash :: x) = "/" ++ name := by
  have hchar : ∀ c : UInt8, Char.ofNat c.toNat = '/' → c = slash := by
    intro c hc
    have hnat := congrArg Char.toNat hc
    have hlt := c.toNat_lt
    rw [Char.toNat_ofNat, if_pos (.inl (by omega))] at hnat
    exact UInt8.toNat_inj.mp hnat
  have hx' : '/' ∉ x.map fun c => Char.ofNat c.toNat := by
    intro hm
    obtain ⟨c, hc, heq⟩ := List.mem_map.mp hm
    exact hx (hchar c heq ▸ hc)
  have hlist : ("/" ++ name).toList = '/' :: name.toList := by
    rw [String.toList_append]
    rfl
  have hurl : (slash :: x).map (fun c => Char.ofNat c.toNat) =
      '/' :: x.map fun c => Char.ofNat c.toNat := rfl
  rw [removeWindowsDriveName, hurl, windowsFilePath_of_notMem hx', hlist,
    windowsFilePath_of_notMem h]
  rfl

/-- What the browser makes of the last segment. -/
theorem resolveSegments_encode {plain : UInt8 → Bool} (hp : plain percent = false)
    (hdot : plain 46 = true) (kept : List Octets) (name : String) :
    resolveSegments kept [encode plain (octets name)] =
      if name = ".." then kept.tail.reverse ++ [[]]
      else if name = "." then kept.reverse ++ [[]]
      else kept.reverse ++ [encode plain (octets name)] := by
  have hsingle := singleDot_encode hp hdot name
  have hdouble := doubleDot_encode hp hdot name
  rw [resolveSegments]
  split_ifs <;> simp_all

theorem load_address (name : String) (h : '/' ∉ name.toList) :
    load (address ("/" ++ name)) =
      some (if name = "" ∨ name = "." ∨ name = ".." then none else some name) := by
  have hslash : slash ∉ encode inAddress (octets name) :=
    not_mem_encode (by decide) (by decide) fun _ => slash_notMem_octets h
  have haddress : address ("/" ++ name) = slash :: encode inAddress (octets name) := by
    rw [address_eq, octets_slash, encode_cons]
    rfl
  have hpathname : pathname (slash :: encode inAddress (octets name)) =
      if name = "." ∨ name = ".." then [slash] else slash :: encode inAddress (octets name) := by
    rw [pathname, pathPart_encode (by decide) (by decide), List.tail_cons,
      splitOn_of_notMem hslash, resolveSegments_encode (by decide) (by decide)]
    split_ifs <;> simp_all
  have hroot : decodeURIComponent [slash] = some "/" := by
    have hpath := decode_path (rfl : inAddress percent = false) ""
    rwa [octets_empty] at hpath
  have hne : "/" ++ name ≠ "" := by simp
  have hparse : parseAppUrl (slash :: encode inAddress (octets name)) =
      some (if name = "." ∨ name = ".." then "/" else "/" ++ name) := by
    rw [parseAppUrl, List.head?_cons, if_pos rfl, hpathname]
    split_ifs with hdots
    · rw [hroot]
      rfl
    · rw [decode_path (by decide), Option.map_some, if_neg hne, withSlash_slash]
  rw [load, haddress, hparse, Option.map_some]
  by_cases hdots : name = "." ∨ name = ".."
  · have hroot' := removeWindowsDriveName_of_notMem "" (by simp) hslash
    rw [if_pos hdots, if_pos (.inr hdots)]
    exact congrArg some (congrArg update hroot')
  · rw [if_neg hdots, removeWindowsDriveName_of_notMem name h hslash, update_slash]
    simp [h, hdots]

theorem settled_slash (name : String) :
    settled ("/" ++ name) = if name = "" ∨ '/' ∈ name.toList then "/" else "/" ++ name := by
  rw [settled, update_slash]
  by_cases hlost : name = "" ∨ '/' ∈ name.toList
  · simp [hlost]
  · simp [hlost]

theorem goStream_eq (current name : String) :
    goStream current name =
      some (if "/" ++ name = current then ("/" ++ name, some name)
        else if name = "" ∨ '/' ∈ name.toList then ("/", none) else ("/" ++ name, some name)) := by
  rw [goStream, setUrl_format, Option.map_some, update_slash, settled_slash]
  simp only [address_injective.eq_iff]
  split_ifs <;> rfl

/-- A page at rest has at most one segment in the address bar. -/
theorem slash_notMem_of_settled {name : String} (h : settled ("/" ++ name) = "/" ++ name) :
    '/' ∉ name.toList := by
  intro hm
  rw [settled_slash, if_pos (.inr hm)] at h
  have hname : name = "" := by simpa using h.symm
  simp [hname] at hm

/-- Showing a stream, and loading the page again from the address bar. -/
theorem stream_links {current : String} (h : settled current = current) (name : String) :
    ∃ path,
      goStream current name =
        some (path, if '/' ∉ name.toList ∧ (name ≠ "" ∨ current = "/") then some name else none) ∧
      load (address path) =
        some (if '/' ∉ name.toList ∧ name ≠ "" ∧ name ≠ "." ∧ name ≠ ".." then some name
          else none) := by
  rw [goStream_eq]
  by_cases hsame : "/" ++ name = current
  · subst hsame
    have hslash := slash_notMem_of_settled h
    have hstate : name ≠ "" ∨ "/" ++ name = "/" := by
      by_cases hempty : name = ""
      · exact .inr (by rw [hempty]; rfl)
      · exact .inl hempty
    refine ⟨"/" ++ name, by rw [if_pos rfl, if_pos ⟨hslash, hstate⟩], ?_⟩
    rw [load_address name hslash]
    grind
  · rw [if_neg hsame]
    by_cases hlost : name = "" ∨ '/' ∈ name.toList
    · have hstate : ¬ ('/' ∉ name.toList ∧ (name ≠ "" ∨ current = "/")) := by
        rintro ⟨hslash, hempty | rfl⟩
        · exact hlost.elim hempty hslash
        · rcases hlost with rfl | hm
          · exact hsame rfl
          · exact hslash hm
      refine ⟨"/", by rw [if_pos hlost, if_neg hstate], ?_⟩
      have hload := load_address "" (by simp)
      have hgone : ¬ ('/' ∉ name.toList ∧ name ≠ "" ∧ name ≠ "." ∧ name ≠ "..") := by
        rintro ⟨hslash, hempty, _⟩
        exact hlost.elim hempty hslash
      rw [if_neg hgone]
      exact hload
    · rw [not_or] at hlost
      refine ⟨"/" ++ name, ?_, ?_⟩
      · rw [if_neg (not_or.mpr hlost), if_pos ⟨hlost.2, .inl hlost.1⟩]
      · rw [load_address name hlost.2]
        grind

theorem stream_links_home : ∃ path, goStream "/" "dyrus" = some (path, some "dyrus") ∧
    load (address path) = some (some "dyrus") := by
  have hrest : settled "/" = "/" := by decide
  obtain ⟨path, hgo, hload⟩ := stream_links hrest "dyrus"
  exact ⟨path, hgo, hload⟩

/-! ### The request -/

/-- A dot followed by letters, digits and underscores. -/
def dotWord : Octets → Bool
  | c :: w => c = 46 ∧ w ≠ [] ∧ w.all isWord
  | [] => false

theorem collapseDot_of_notMem {x : Octets} (h : slash ∉ x) : collapseDot x = x := by
  fun_induction collapseDot x with
  | case1 c d x hdot => exact absurd hdot.1 (fun he => h (he ▸ List.mem_cons_self))
  | case2 c d x hdot ih => rw [ih fun hm => h (List.mem_cons_of_mem c hm)]
  | case3 x hx => rfl

theorem unescapeDot_of_notMem {x : Octets} (h : (92 : UInt8) ∉ x) : unescapeDot x = x := by
  fun_induction unescapeDot x with
  | case1 c d e x hdot =>
    rw [hdot.2.1] at h
    simp at h
  | case2 c d e x hdot ih => rw [ih fun hm => h (List.mem_cons_of_mem c hm)]
  | case3 x hx => rfl

theorem endsInWord_iff {x : Octets} (h : question ∉ x) :
    endsInWord x = true ↔ x ≠ [] ∧ x.all isWord = true := by
  have hquestion : (x.dropWhile isWord).head? ≠ some question := by
    intro hq
    exact h ((List.dropWhile_suffix isWord).subset (List.mem_of_mem_head? hq))
  rw [endsInWord, decide_eq_true_eq, or_iff_left hquestion, List.head?_eq_none_iff,
    List.dropWhile_eq_nil_iff, List.all_eq_true]
  constructor
  · rintro ⟨hne, hall⟩
    refine ⟨fun he => hne ?_, hall⟩
    rw [he, List.takeWhile_nil]
  · rintro ⟨hne, hall⟩
    rw [List.takeWhile_eq_self_iff.mpr hall]
    exact ⟨hne, hall⟩

/-- What is put in place of `:name`. -/
def inSegment (c : UInt8) : Bool := unreserved c || [64, 58, 36, 44, 38, 61, 43].contains c

theorem inSegment_of_isWord {c : UInt8} (h : isWord c = true) : inSegment c = true := by
  have hunreserved : unreserved c = true := by
    rw [isWord, decide_eq_true_eq] at h
    rw [unreserved, decide_eq_true_eq]
    rcases h with h | h | h | rfl
    · exact .inl h
    · exact .inr (.inl h)
    · exact .inr (.inr (.inl h))
    · exact .inr (.inr (.inr (by simp)))
  rw [inSegment, hunreserved, Bool.true_or]

theorem encode_of_dotWord {x : Octets} (h : dotWord x = true) : encode inSegment x = x := by
  cases x with
  | nil => rfl
  | cons c w =>
    rw [dotWord, decide_eq_true_eq] at h
    obtain ⟨rfl, -, hw⟩ := h
    apply encode_of_plain
    intro d hd
    rcases List.mem_cons.mp hd with rfl | hd
    · rfl
    · exact inSegment_of_isWord (List.all_eq_true.mp hw d hd)

theorem dotWord_encode (x : Octets) : dotWord (encode inSegment x) = dotWord x := by
  rw [Bool.eq_iff_iff]
  constructor
  · intro h
    have hpercent : percent ∉ encode inSegment x := by
      cases he : encode inSegment x with
      | nil => exact List.not_mem_nil
      | cons c w =>
        rw [he, dotWord, decide_eq_true_eq] at h
        obtain ⟨rfl, -, hw⟩ := h
        intro hm
        rcases List.mem_cons.mp hm with hc | hm
        · exact absurd hc (by decide)
        · exact absurd (List.all_eq_true.mp hw _ hm) (by decide)
    have hsame := decode_of_notMem hpercent
    rw [decode_encode (by decide)] at hsame
    rwa [← hsame] at h
  · intro h
    rwa [encode_of_dotWord h]

theorem collapseDot_slash {x : Octets} (hs : slash ∉ x) (hq : question ∉ x) :
    collapseDot (slash :: x) = if dotWord x then x else slash :: x := by
  cases x with
  | nil => rfl
  | cons d w =>
    have hw := endsInWord_iff fun hm => hq (List.mem_cons_of_mem d hm)
    have hdot : dotWord (d :: w) = true ↔ slash = slash ∧ d = 46 ∧ endsInWord w = true := by
      rw [dotWord, decide_eq_true_eq, hw]
      exact ⟨fun h => ⟨rfl, h⟩, fun h => h.2⟩
    rw [collapseDot, collapseDot_of_notMem hs]
    simp only [hdot]

theorem stripTrailingSlashes_append {x : Octets} (hs : slash ∉ x) (hx : x ≠ []) (y : Octets) :
    stripTrailingSlashes (y ++ x) = y ++ x := by
  have hne : y ++ x ≠ [] := List.append_ne_nil_of_right_ne_nil y hx
  have hself : (y ++ x).rdropWhile (· = slash) = y ++ x := by
    rw [List.rdropWhile_eq_self_iff]
    intro _
    rw [List.getLast_append_of_ne_nil hne hx, decide_eq_true_eq]
    intro he
    exact hs (he ▸ List.getLast_mem hx)
  rw [stripTrailingSlashes, hself, if_neg hne]

theorem octets_streams : octets "/streams" = [47, 115, 116, 114, 101, 97, 109, 115] := by
  rw [octets_eq_flatMap]
  rfl

theorem octets_streams_slash : octets "/streams/" = octets "/streams" ++ [slash] := by
  rw [octets_streams, octets_eq_flatMap]
  rfl

theorem setUrlParams_eq (name : String) :
    setUrlParams (some name) =
      if name = "" then octets "/streams"
      else if dotWord (octets name) then octets "/streams" ++ octets name
      else octets "/streams/" ++ encode inSegment (octets name) := by
  have hslash : slash ∉ encode inSegment (octets name) :=
    not_mem_encode (by decide) (by decide) fun h => absurd h (by decide)
  have hquestion : question ∉ encode inSegment (octets name) :=
    not_mem_encode (by decide) (by decide) fun h => absurd h (by decide)
  have hbackslash : (92 : UInt8) ∉ encode inSegment (octets name) :=
    not_mem_encode (by decide) (by decide) fun h => absurd h (by decide)
  have hurl : setUrlParams (some name) = unescapeDot (collapseDot (stripTrailingSlashes
      (octets "/streams/" ++ encode inSegment (octets name)))) := by
    simp only [setUrlParams, resource_encodeUriSegment_eq]
    rfl
  rw [hurl, octets_streams_slash]
  by_cases hname : name = ""
  · rw [if_pos hname, hname, octets_empty, octets_streams]
    decide
  · have hne : encode inSegment (octets name) ≠ [] := by
      intro he
      have hdecode := decode_encode (rfl : inSegment percent = false) (octets name)
      rw [he] at hdecode
      exact hname (octets_injective (hdecode.symm.trans octets_empty.symm))
    have hcollapse : collapseDot (octets "/streams" ++ slash :: encode inSegment (octets name)) =
        octets "/streams" ++ collapseDot (slash :: encode inSegment (octets name)) := by
      rw [octets_streams]
      simp [collapseDot, slash]
    rw [if_neg hname, stripTrailingSlashes_append hslash hne, List.append_assoc,
      List.singleton_append, hcollapse, collapseDot_slash hslash hquestion, dotWord_encode]
    have hkeep : ∀ y : Octets, (92 : UInt8) ∉ y →
        unescapeDot (octets "/streams" ++ y) = octets "/streams" ++ y := by
      intro y hy
      apply unescapeDot_of_notMem
      rw [octets_streams, List.mem_append, not_or]
      exact ⟨by decide, hy⟩
    split_ifs with hdot
    · rw [hkeep _ hbackslash, encode_of_dotWord hdot]
    · apply hkeep
      rw [List.mem_cons, not_or]
      exact ⟨by decide, hbackslash⟩

/-! ### What answers -/

/-- A path whose segments have been encoded one by one. -/
def encodedPath (segments : List String) : Octets :=
  slash :: [slash].intercalate ((segments.map octets).map (encode inSegment))

theorem slash_notMem_pieces {segments : List String} (h : ∀ s ∈ segments, '/' ∉ s.toList) :
    ∀ x ∈ segments.map octets, slash ∉ x := by
  intro x hx
  obtain ⟨s, hs, rfl⟩ := List.mem_map.mp hx
  exact slash_notMem_octets (h s hs)

theorem encodedPath_eq {segments : List String} (h : ∀ s ∈ segments, '/' ∉ s.toList) :
    encodedPath segments = slash ::
      encode (fun c => inSegment c || c == slash) ([slash].intercalate (segments.map octets)) := by
  rw [encodedPath, intercalate_map_encode (slash_notMem_pieces h)]

theorem pathname_encodedPath {segments : List String} (hne : segments ≠ [])
    (h : ∀ s ∈ segments, '/' ∉ s.toList) :
    pathname (encodedPath segments) = slash ::
      [slash].intercalate (resolveSegments [] ((segments.map octets).map (encode inSegment))) := by
  have hpath : pathPart (encodedPath segments) = encodedPath segments := by
    rw [encodedPath_eq h]
    exact pathPart_encode (by decide) (by decide) _
  have hsplit : (encodedPath segments).tail.splitOn slash =
      (segments.map octets).map (encode inSegment) := by
    apply List.splitOn_intercalate
    · intro x hx
      obtain ⟨y, -, rfl⟩ := List.mem_map.mp hx
      exact not_mem_encode (by decide) (by decide) fun hs => absurd hs (by decide)
    · simpa using hne
  rw [pathname, hpath, hsplit]

/-- What is sent segment by segment arrives so. -/
theorem encodedPath_arrives {segments : List String} (hne : segments ≠ [])
    (h : ∀ s ∈ segments, '/' ∉ s.toList) :
    ((decode (encodedPath segments).tail).splitOn slash).mapM readUtf8 = some segments := by
  have hread : ∀ l : List String, (l.map octets).mapM readUtf8 = some l := by
    intro l
    induction l with
    | nil => rfl
    | cons s l ih => simp [readUtf8_octets, ih]
  have hpieces : segments.map octets ≠ [] := by simpa using hne
  rw [encodedPath_eq h, List.tail_cons, decode_encode (by decide),
    List.splitOn_intercalate slash (slash_notMem_pieces h) hpieces, hread]

theorem setUrlParams_eq_encodedPath (name : String) :
    setUrlParams (some name) =
      encodedPath (if name = "" then ["streams"]
        else if dotWord (octets name) then ["streams" ++ name] else ["streams", name]) := by
  have hstreams : octets "/streams" = slash :: octets "streams" := by
    rw [octets_streams, octets_eq_flatMap]
    rfl
  have hplain : encode inSegment (octets "streams") = octets "streams" := by
    rw [octets_eq_flatMap]
    rfl
  rw [setUrlParams_eq, octets_streams_slash, hstreams]
  split_ifs with hname hdot
  · simp [encodedPath, hplain]
  · simp [encodedPath, octets_append, encode_append, hplain, encode_of_dotWord hdot]
  · simp [encodedPath, hplain]

theorem resolved_arrives {segments resolved : List String} (hne : segments ≠ [])
    (h : ∀ s ∈ segments, '/' ∉ s.toList) (hne' : resolved ≠ [])
    (h' : ∀ s ∈ resolved, '/' ∉ s.toList)
    (hresolve : resolveSegments [] ((segments.map octets).map (encode inSegment)) =
      (resolved.map octets).map (encode inSegment)) :
    ((decode (pathname (encodedPath segments)).tail).splitOn slash).mapM readUtf8 =
      some resolved := by
  rw [pathname_encodedPath hne h, hresolve, ← encodedPath, encodedPath_arrives hne' h']

theorem resolveSegments_cons {x y : Octets} (kept : List Octets) (hdouble : doubleDot x = false)
    (hsingle : singleDot x = false) :
    resolveSegments kept [x, y] = resolveSegments (x :: kept) [y] := by
  rw [resolveSegments.eq_3 kept x [y] (List.cons_ne_nil y []), hdouble, hsingle]
  rfl

theorem head_streams (name : String) : ("streams" ++ name).toList.head? = some 's' := by
  rw [String.toList_append]
  rfl

theorem requestPath_eq {name : String} (h : '/' ∉ name.toList) :
    requestPath (some name) =
      some (if name = "" then ["streams"] else if name = "." then ["streams", ""]
        else if name = ".." then [""] else if dotWord (octets name) then ["streams" ++ name]
        else ["streams", name]) := by
  have hlast := resolveSegments_encode (rfl : inSegment percent = false) rfl
  have hdouble : doubleDot (encode inSegment (octets "streams")) = false := by
    rw [Bool.eq_false_iff, Ne, doubleDot_encode rfl rfl]
    decide
  have hsingle : singleDot (encode inSegment (octets "streams")) = false := by
    rw [Bool.eq_false_iff, Ne, singleDot_encode rfl rfl]
    decide
  have hfirst : resolveSegments [] [encode inSegment (octets "streams"),
        encode inSegment (octets name)] =
      resolveSegments [encode inSegment (octets "streams")] [encode inSegment (octets name)] :=
    resolveSegments_cons [] hdouble hsingle
  have hnoDot : ∀ s : String, s = "." ∨ s = ".." → dotWord (octets s) = false := by
    rintro s (rfl | rfl)
    · rw [octets_dot]
      rfl
    · rw [octets_dots]
      rfl
  rw [requestPath, setUrlParams_eq_encodedPath]
  apply resolved_arrives
  · split_ifs <;> simp
  · split_ifs <;> simp [h]
  · split_ifs <;> simp
  · split_ifs <;> simp [h]
  · by_cases hname : name = ""
    · rw [if_pos hname, if_pos hname]
      exact hlast [] "streams"
    · rw [if_neg hname, if_neg hname]
      by_cases hdot : dotWord (octets name) = true
      · have hsingle : name ≠ "." := fun he => by simp [hnoDot name (.inl he)] at hdot
        have hdouble : name ≠ ".." := fun he => by simp [hnoDot name (.inr he)] at hdot
        have hlong : ∀ s ∈ [".", ".."], "streams" ++ name ≠ s := by
          intro s hs he
          have hother : ∀ s ∈ [".", ".."], s.toList.head? ≠ some 's' := by decide
          exact hother s hs (he ▸ head_streams name)
        rw [if_pos hdot, if_neg hsingle, if_neg hdouble, List.map_singleton,
          List.map_singleton, hlast, if_neg (hlong _ (by simp)), if_neg (hlong _ (by simp))]
        rfl
      · rw [if_neg hdot, List.map_cons, List.map_cons, List.map_singleton,
          List.map_singleton, hfirst, hlast]
        by_cases hdouble : name = ".."
        · subst hdouble
          simp [octets_empty, encode]
        · split_ifs <;> simp [octets_empty, encode]

theorem dispatch_unknown {name : String} (h : name ≠ "") :
    dispatch "GET" ["streams" ++ name] = none := by
  have hliteral : ∀ s ∈ ["riot.html", "auth", "favorites", "user"], "streams" ++ name ≠ s := by
    have hother : ∀ s ∈ ["riot.html", "auth", "favorites", "user"],
        s.toList.head? ≠ some 's' := by decide
    intro s hs he
    exact hother s hs (he ▸ head_streams name)
  simp only [List.mem_cons, List.not_mem_nil, or_false, forall_eq_or_imp, forall_eq] at hliteral
  simp [dispatch, routes, getRoute, putRoute, Route.captures, matchPattern, h, hliteral]

theorem dispatch_record {name : String} (h : Fits name) :
    dispatch "GET" ["streams", name] = some (.stream, some name) := by
  by_cases hbleh : name = "bleh"
  · subst hbleh
    decide
  · have hshadow : ¬ Shadowed "GET" ["streams", name] := by
      rintro ⟨hpath, _⟩
      simp [hbleh] at hpath
    have hm : matchPattern [.literal "streams", .name] ["streams", name] = some (some name) := by
      have htakes : name ≠ "" ∧ '?' ∉ name.toList ∧ '#' ∉ name.toList := h
      rw [matchPattern, if_pos rfl, matchPattern, if_pos htakes]
      rfl
    apply dispatch_of_mem hshadow ⟨"GET", [.literal "streams", .name], true, .stream⟩ (by decide)
    rw [Route.captures, if_pos rfl, hm]

/-- What answers the request for the record of a stream. -/
theorem record_request {name : String} (hslash : '/' ∉ name.toList) (h : name = "" ∨ Fits name) :
    recordHandler name =
      if name = "" ∨ name = "." then some (.streams, none)
      else if name = ".." then some (.index, none)
      else if dotWord (octets name) then none
      else some (.stream, some name) := by
  rw [recordHandler, requestPath_eq hslash, Option.bind_some]
  by_cases hname : name = ""
  · rw [if_pos hname, if_pos (.inl hname)]
    decide
  · rw [if_neg hname]
    by_cases hsingle : name = "."
    · rw [if_pos hsingle, if_pos (.inr hsingle)]
      decide
    · rw [if_neg hsingle, if_neg (not_or.mpr ⟨hname, hsingle⟩)]
      by_cases hdouble : name = ".."
      · rw [if_pos hdouble, if_pos hdouble]
        decide
      · rw [if_neg hdouble, if_neg hdouble]
        split_ifs with hdot
        · exact dispatch_unknown hname
        · exact dispatch_record (h.resolve_left hname)

theorem record_request_dyrus : recordHandler "dyrus" = some (.stream, some "dyrus") := by
  have hword : dotWord (octets "dyrus") = false := by
    rw [octets_eq_flatMap]
    rfl
  have hfits : Fits "dyrus" := by decide
  have hrequest := record_request (by decide) (.inr hfits)
  rwa [hword] at hrequest

end LolStreams
