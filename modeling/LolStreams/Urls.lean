import LolStreams.UrlParsing

/-! The URLs that the program builds by interpolation, none of which escapes what it is
given, and what a parser reads back from them. -/
namespace LolStreams

open UrlParsing

/-- A URL to build, with the strings that go into it. -/
inductive Built
  | putFollow (user stream token : String)
  | putUnfollow (user stream token : String)
  | getFavorites (token : String)
  | getUser (token : String)
  | activechat (name : String)
  | flashPlayer (activestream : String)
  deriving DecidableEq, Repr

inductive Site
  | putFollow
  | putUnfollow
  | getFavorites
  | getUser
  | activechat
  | flashPlayer
  deriving DecidableEq, Repr

/-- `https://api.twitch.tv/kraken/users/#{data['user']}/follows/channels/#{data['stream']}...` -/
def channelUrl (user stream token : String) : String :=
  .join ["https://api.twitch.tv/kraken/users/", user, "/follows/channels/", stream,
    "?oauth_token=", token]

namespace Built

def site : Built → Site
  | putFollow .. => .putFollow
  | putUnfollow .. => .putUnfollow
  | getFavorites .. => .getFavorites
  | getUser .. => .getUser
  | activechat .. => .activechat
  | flashPlayer .. => .flashPlayer

/-- The text around the values is as each template has it: the entity of the chat URL stands in a
JavaScript string, and the player has three closing braces after two opening ones. -/
def url : Built → String
  | putFollow user stream token => channelUrl user stream token
  | putUnfollow user stream token => channelUrl user stream token
  | getFavorites token => .join ["https://api.twitch.tv/kraken/streams/followed?oauth_token=", token]
  | getUser token => .join ["https://api.twitch.tv/kraken/user?oauth_token=", token]
  | activechat name =>
    .join ["http://twitch.tv/chat/embed?channel=", name, "&amp;popout_chat=true"]
  | flashPlayer activestream =>
    .join ["http://www.twitch.tv/widgets/live_embed_player.swf?channel=", activestream, "\x7d"]

end Built

/-- A request to the API with the token. -/
def apiUrl (path : List Octets) (token : String) : Url where
  scheme := octets "https"
  host := octets "api.twitch.tv"
  path := octets "kraken" :: path
  query := [(octets "oauth_token", some (octets token))]
  fragment := none

def channelPath (user stream : String) : List Octets :=
  [octets "users", octets user, octets "follows", octets "channels", octets stream]

/-- What each URL should say. -/
def Built.intended : Built → Url
  | putFollow user stream token => apiUrl (channelPath user stream) token
  | putUnfollow user stream token => apiUrl (channelPath user stream) token
  | getFavorites token => apiUrl [octets "streams", octets "followed"] token
  | getUser token => apiUrl [octets "user"] token
  | activechat name =>
    ⟨octets "http", octets "twitch.tv", [octets "chat", octets "embed"],
      [(octets "channel", some (octets name)), (octets "popout_chat", some (octets "true"))], none⟩
  | flashPlayer activestream =>
    ⟨octets "http", octets "www.twitch.tv", [octets "widgets", octets "live_embed_player.swf"],
      [(octets "channel", some (octets activestream))], none⟩

def ReadsBack (b : Built) : Prop := Url.read (octets b.url) = some b.intended

/-- Users and streams that are one path segment, and tokens that are one value. -/
def Built.Plain : Built → Prop
  | putFollow user stream token | putUnfollow user stream token =>
    PlainSegment (octets user) ∧ PlainSegment (octets stream) ∧ PlainValue (octets token)
  | getFavorites token | getUser token => PlainValue (octets token)
  | activechat _ | flashPlayer _ => False

/-! ### Requests to the API -/

theorem write_apiUrl (path : List Octets) (token : String) :
    (apiUrl path token).write =
      octets "https://api.twitch.tv/" ++ [slash].intercalate (octets "kraken" :: path) ++
        octets "?oauth_token=" ++ octets token := by
  have hfront : octets "https://api.twitch.tv/" =
      octets "https" ++ colon :: slash :: slash :: octets "api.twitch.tv" ++ [slash] := by
    decide +kernel
  have hquery : octets "?oauth_token=" = question :: octets "oauth_token" ++ [equals] := by
    decide +kernel
  rw [hfront, hquery]
  simp [Url.write, Url.address, Url.queryText, apiUrl, joined, lead, Param.write]

theorem separated_apiUrl_iff (path : List Octets) (token : String) :
    (apiUrl path token).Separated ↔
      (∀ x ∈ path, sharp ∉ x ∧ question ∉ x ∧ slash ∉ x) ∧ sharp ∉ octets token ∧
        amp ∉ octets token := by
  have hname : sharp ∉ octets "oauth_token" ∧ amp ∉ octets "oauth_token" ∧
      equals ∉ octets "oauth_token" := by decide +kernel
  have hkraken : sharp ∉ octets "kraken" ∧ question ∉ octets "kraken" ∧
      slash ∉ octets "kraken" := by decide +kernel
  constructor
  · intro h
    obtain ⟨hsharp, hamp, _⟩ := h.query _ List.mem_cons_self
    simp only [Param.write, lead, List.mem_append, List.mem_cons, not_or] at hsharp hamp
    exact ⟨fun x hx => h.path x (List.mem_cons_of_mem _ hx), hsharp.2.2, hamp.2.2⟩
  · rintro ⟨hpath, hsharp, hamp⟩
    have hscheme : sharp ∉ octets "https" ∧ question ∉ octets "https" ∧
        colon ∉ octets "https" := by decide +kernel
    have hhost : sharp ∉ octets "api.twitch.tv" ∧ question ∉ octets "api.twitch.tv" ∧
        slash ∉ octets "api.twitch.tv" := by decide +kernel
    refine ⟨hscheme, hhost, ?_, ?_⟩
    · exact List.forall_mem_cons.mpr ⟨hkraken, hpath⟩
    · intro p hp
      obtain rfl := List.mem_singleton.mp hp
      have hne : sharp ≠ equals ∧ amp ≠ equals := by decide
      simp [Param.write, lead, hname, hsharp, hamp, hne]

theorem decoded_apiUrl_iff (path : List Octets) (token : String) :
    (apiUrl path token).decoded = apiUrl path token ↔
      (∀ x ∈ path, hasEscape x = false) ∧ hasEscape (octets token) = false := by
  have hname : decode (octets "oauth_token") = octets "oauth_token" := by decide +kernel
  have hkraken : decode (octets "kraken") = octets "kraken" := by decide +kernel
  simp [Url.decoded, apiUrl, hname, hkraken, map_decode_eq_self_iff, decode_eq_self_iff]

theorem apiUrl_reads_back_iff (path : List Octets) (token : String) :
    Url.read (apiUrl path token).write = some (apiUrl path token) ↔
      (∀ x ∈ path, PlainSegment x) ∧ PlainValue (octets token) := by
  rw [Url.read_write_iff, separated_apiUrl_iff, decoded_apiUrl_iff]
  simp only [PlainSegment, PlainValue, ← and_assoc, forall_and]
  tauto

theorem octets_channelUrl (user stream token : String) :
    octets (channelUrl user stream token) = (apiUrl (channelPath user stream) token).write := by
  have hfront : octets "https://api.twitch.tv/kraken/users/" =
      octets "https://api.twitch.tv/" ++ octets "kraken" ++ slash :: octets "users" ++ [slash] := by
    decide +kernel
  have hmiddle : octets "/follows/channels/" =
      slash :: octets "follows" ++ slash :: octets "channels" ++ [slash] := by
    decide +kernel
  rw [write_apiUrl, channelUrl, octets_join]
  simp [hfront, hmiddle, channelPath]

theorem channelUrl_reads_back_iff (user stream token : String) :
    Url.read (octets (channelUrl user stream token)) =
        some (apiUrl (channelPath user stream) token) ↔
      PlainSegment (octets user) ∧ PlainSegment (octets stream) ∧ PlainValue (octets token) := by
  have hfixed : PlainSegment (octets "users") ∧ PlainSegment (octets "follows") ∧
      PlainSegment (octets "channels") := by decide +kernel
  rw [octets_channelUrl, apiUrl_reads_back_iff]
  simp [channelPath, hfixed, and_assoc]

/-- Where the path is fixed, the token decides. -/
theorem fixedPath_reads_back_iff {path : List Octets} (hpath : ∀ x ∈ path, PlainSegment x)
    (token : String) :
    Url.read (apiUrl path token).write = some (apiUrl path token) ↔
      PlainValue (octets token) := by
  rw [apiUrl_reads_back_iff]
  exact ⟨fun h => h.2, fun h => ⟨hpath, h⟩⟩

theorem favorites_reads_back_iff (token : String) :
    ReadsBack (.getFavorites token) ↔ PlainValue (octets token) := by
  have hurl : octets (Built.url (.getFavorites token)) =
      (apiUrl [octets "streams", octets "followed"] token).write := by
    have hfront : octets "https://api.twitch.tv/kraken/streams/followed?oauth_token=" =
        octets "https://api.twitch.tv/" ++ octets "kraken" ++ slash :: octets "streams" ++
          slash :: octets "followed" ++ octets "?oauth_token=" := by decide +kernel
    rw [write_apiUrl, Built.url, octets_join]
    simp [hfront]
  rw [ReadsBack, hurl]
  exact fixedPath_reads_back_iff (by decide +kernel) token

theorem user_reads_back_iff (token : String) :
    ReadsBack (.getUser token) ↔ PlainValue (octets token) := by
  have hurl : octets (Built.url (.getUser token)) = (apiUrl [octets "user"] token).write := by
    have hfront : octets "https://api.twitch.tv/kraken/user?oauth_token=" =
        octets "https://api.twitch.tv/" ++ octets "kraken" ++ slash :: octets "user" ++
          octets "?oauth_token=" := by decide +kernel
    rw [write_apiUrl, Built.url, octets_join]
    simp [hfront]
  rw [ReadsBack, hurl]
  exact fixedPath_reads_back_iff (by decide +kernel) token

/-! ### The two embeds -/

/-- The parts that splitting finds in a URL that reads back. -/
theorem ReadsBack.parts {b : Built} (h : ReadsBack b) :
    ∃ u : Url, u.Separated ∧ u.write = octets b.url ∧ u.fragment = b.intended.fragment ∧
      u.query.map (Prod.map decode (Option.map decode)) = b.intended.query := by
  obtain ⟨u, hu, hd⟩ := Option.map_eq_some_iff.mp h
  obtain ⟨hsep, hwrite⟩ := Url.split_spec hu
  have hfragment : u.decoded.fragment = b.intended.fragment := congrArg Url.fragment hd
  have hquery : u.decoded.query = b.intended.query := congrArg Url.query hd
  exact ⟨u, hsep, hwrite, hfragment, hquery⟩

/-- The parameter after the entity's ampersand is `amp;popout_chat`, whatever the channel. -/
theorem activechat_misread (name : String) : ¬ ReadsBack (.activechat name) := by
  intro h
  obtain ⟨u, hsep, hwrite, hfragment, hquery⟩ := h.parts
  obtain ⟨p, rest, hp, _, hrest⟩ := List.map_eq_cons_iff.mp hquery
  obtain ⟨q, rest, rfl, hq, hnil⟩ := List.map_eq_cons_iff.mp hrest
  obtain rfl := List.map_eq_nil_iff.mp hnil
  have hurl : u.write = octets "http://twitch.tv/chat/embed" ++ lead question
      (some (octets "channel=" ++ octets name ++ amp :: octets "amp;popout_chat=true")) := by
    have hfront : octets "http://twitch.tv/chat/embed?channel=" =
        octets "http://twitch.tv/chat/embed" ++ question :: octets "channel=" := by
      decide +kernel
    have hback : octets "&amp;popout_chat=true" = amp :: octets "amp;popout_chat=true" := by
      decide +kernel
    rw [hwrite, Built.url, octets_join]
    simp [lead, hfront, hback]
  have htext := Url.queryText_of_write hsep hfragment (by decide +kernel) hurl
  rw [Url.queryText, hp] at htext
  have hjoin : Param.write p ++ amp :: Param.write q =
      octets "channel=" ++ octets name ++ amp :: octets "amp;popout_chat=true" := by
    simpa [joined] using htext
  have hamp : amp ∉ Param.write q := (hsep.query q (by simp [hp])).2.1
  have hlast := eq_of_append_cons_eq hamp (by decide +kernel) hjoin
  have hparam := Url.param_of_write hsep (p := q) (by simp [hp])
  rw [hlast] at hparam
  rw [hparam] at hq
  exact absurd hq (by decide +kernel)

/-- The channel is read with the third closing brace, whatever it is. -/
theorem flashPlayer_misread (activestream : String) : ¬ ReadsBack (.flashPlayer activestream) := by
  intro h
  obtain ⟨u, hsep, hwrite, hfragment, hquery⟩ := h.parts
  obtain ⟨p, rest, hp, hdecode, hnil⟩ := List.map_eq_cons_iff.mp hquery
  obtain rfl := List.map_eq_nil_iff.mp hnil
  have hurl : u.write = octets "http://www.twitch.tv/widgets/live_embed_player.swf" ++
      lead question (some (octets "channel" ++
        lead equals (some (octets activestream ++ octets "\x7d")))) := by
    have hfront : octets "http://www.twitch.tv/widgets/live_embed_player.swf?channel=" =
        octets "http://www.twitch.tv/widgets/live_embed_player.swf" ++
          question :: octets "channel" ++ [equals] := by
      decide +kernel
    rw [hwrite, Built.url, octets_join]
    simp [lead, hfront]
  have htext := Url.queryText_of_write hsep hfragment (by decide +kernel) hurl
  rw [Url.queryText, hp] at htext
  have hparam := Url.param_of_write hsep (p := p) (by simp [hp])
  have hwhole : Param.write p = octets "channel" ++
      lead equals (some (octets activestream ++ octets "\x7d")) := by
    simpa [joined] using htext
  rw [hwhole, cut_append (by decide +kernel)] at hparam
  have hvalue : decode (octets activestream ++ octets "\x7d") = octets activestream := by
    rw [hparam] at hdecode
    exact Option.some.inj (Prod.mk.inj hdecode).2
  have hbrace : octets "\x7d" = [125] := by decide +kernel
  rw [hbrace, decode_append_singleton (by decide)] at hvalue
  have hlength := congrArg List.length hvalue
  have hparity := length_decode_mod_two (octets activestream)
  rw [List.length_append, List.length_singleton] at hlength
  omega

/-! ### All six -/

theorem reads_back_iff (b : Built) : ReadsBack b ↔ b.Plain := by
  cases b with
  | putFollow user stream token => exact channelUrl_reads_back_iff user stream token
  | putUnfollow user stream token => exact channelUrl_reads_back_iff user stream token
  | getFavorites token => exact favorites_reads_back_iff token
  | getUser token => exact user_reads_back_iff token
  | activechat name => exact iff_of_false (activechat_misread name) id
  | flashPlayer activestream => exact iff_of_false (flashPlayer_misread activestream) id

theorem apiUrl_injective {path path' : List Octets} {token token' : String}
    (h : apiUrl path token = apiUrl path' token') : path = path' ∧ token = token' := by
  have hpath := congrArg Url.path h
  have hquery := congrArg Url.query h
  simp only [apiUrl, List.cons.injEq, true_and, and_true, Prod.mk.injEq, Option.some.injEq]
    at hpath hquery
  exact ⟨hpath, octets_injective hquery⟩

theorem channelPath_injective {user stream user' stream' : String}
    (h : channelPath user stream = channelPath user' stream') :
    user = user' ∧ stream = stream' := by
  simp only [channelPath, List.cons.injEq, true_and, and_true] at h
  exact ⟨octets_injective h.1, octets_injective h.2⟩

theorem intended_injective {b c : Built} (hsite : b.site = c.site) (hb : b.Plain)
    (h : b.intended = c.intended) : b = c := by
  cases b <;> cases c <;> simp only [Built.site, reduceCtorEq] at hsite
  case putFollow.putFollow | putUnfollow.putUnfollow =>
    obtain ⟨hpath, rfl⟩ := apiUrl_injective h
    obtain ⟨rfl, rfl⟩ := channelPath_injective hpath
    rfl
  case getFavorites.getFavorites | getUser.getUser =>
    obtain ⟨_, rfl⟩ := apiUrl_injective h
    rfl
  case activechat.activechat | flashPlayer.flashPlayer => exact hb.elim

/-- A URL reads back exactly when what goes into it is plain, which for the two embeds is never;
and plain strings that build the same URL at one site are the same. -/
theorem built_url_reads_back_iff (b : Built) :
    (ReadsBack b ↔ b.Plain) ∧
      ∀ c : Built, b.site = c.site → b.Plain → c.Plain → b.url = c.url → b = c := by
  refine ⟨reads_back_iff b, ?_⟩
  intro c hsite hb hc hurl
  have hread : some b.intended = some c.intended := by
    rw [← (reads_back_iff b).mpr hb, ← (reads_back_iff c).mpr hc, hurl]
  exact intended_injective hsite hb (Option.some.inj hread)

/-- The chat of an ordinary channel does not get its second parameter. -/
theorem chat_url_misread : ¬ ∀ b, ReadsBack b := by
  intro h
  exact activechat_misread "dyrus" (h (.activechat "dyrus"))

end LolStreams
