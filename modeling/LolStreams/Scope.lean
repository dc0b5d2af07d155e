import LolStreams.JsObject

/-! The records the page receives and the `$scope` of `StreamsCtrl`, with the filter
functions and the option clicks. Optional fields are the variables that stay undefined
until an answer assigns them. -/
namespace LolStreams

structure Channel where
  name : String
  broadcasterLanguage : JsField String
  deriving DecidableEq, Repr

structure StreamerInfo where
  team : JsField String
  gender : JsField Int
  deriving DecidableEq, Repr

structure Stream where
  champion : JsField String
  championname : JsField String
  rank : JsField String
  region : JsField String
  status : JsField String
  channel : JsField Channel
  streamer : JsField StreamerInfo
  deriving DecidableEq, Repr

/-- An element of the followed-streams answer, of which only the channel is read. -/
structure Favorite where
  channel : Channel
  deriving DecidableEq, Repr

structure User where
  name : JsField String
  deriving DecidableEq, Repr

structure Scope where
  streams : Option (List Stream)
  championFilter : Option JsObject
  langFilter : Option JsObject
  teamFilter : Option JsObject
  rankFilter : JsObject
  regionFilter : JsObject
  ingameFilter : JsObject
  gametypeFilter : JsObject
  favFilter : Option JsObject
  favstreams : Option (List Favorite)
  favBox : Bool
  user : Option User

/-- An object literal whose listed properties are all `false`. -/
def flags (names : List String) : JsObject :=
  names.foldl (fun o k => o.put k (.bool false)) .empty

/-- The scope when the controller function has returned and no answer has come in. -/
def Scope.start : Scope where
  streams := none
  championFilter := none
  langFilter := none
  teamFilter := none
  rankFilter := flags ["CHALLENGER", "MASTER", "DIAMOND", "PLATINUM", "GOLD", "SILVER", "BRONZE",
    "UNRANKED"]
  regionFilter := flags ["NA", "EUW", "EUNE", "BR", "TR", "RU", "LAN", "LAS", "OCE"]
  ingameFilter := flags ["Not in game.", "Champion select.", "In game.", "Spectating."]
  gametypeFilter := flags ["0", "1", "3", "4"]
  favFilter := none
  favstreams := none
  favBox := false
  user := none

/-- What a callback leaves behind: assignments made before an exception stay. -/
inductive Outcome
  | done (s : Scope)
  | threw (s : Scope)

namespace Outcome

def scope : Outcome → Scope
  | done s => s
  | threw s => s

def completed : Outcome → Bool
  | done _ => true
  | threw _ => false

def andThen : Outcome → (Scope → Outcome) → Outcome
  | done s, f => f s
  | threw s, _ => threw s

@[simp] theorem andThen_done (s : Scope) (f : Scope → Outcome) : (done s).andThen f = f s := rfl

@[simp] theorem andThen_threw (s : Scope) (f : Scope → Outcome) :
    (threw s).andThen f = threw s := rfl

end Outcome

/-- The three filters whose options are taken from the answers. -/
inductive Dimension
  | champion
  | lang
  | team
  deriving DecidableEq, Repr

namespace Dimension

/-- The attribute the dimension filters by; `channel` and `streamer` are dereferenced. -/
def attr : Dimension → Stream → Except JsError (JsField String)
  | champion, stream => .ok stream.championname
  | lang, stream => stream.channel.deref.map Channel.broadcasterLanguage
  | team, stream => stream.streamer.deref.map StreamerInfo.team

/-- The condition under which a record offers its attribute as an option. -/
def offers : Dimension → Stream → Except JsError Bool
  | champion, stream => .ok (!stream.champion.eqString "No info." &&
      !stream.champion.eqString "Not in game." && !stream.champion.eqUndefined)
  | lang, stream => stream.channel.deref.map fun channel =>
      !channel.broadcasterLanguage.eqString "other" && !channel.broadcasterLanguage.eqUndefined
  | team, stream => stream.streamer.deref.map fun streamer =>
      !streamer.team.eqString "" && !streamer.team.eqUndefined

end Dimension

namespace Scope

def filter (s : Scope) : Dimension → Option JsObject
  | .champion => s.championFilter
  | .lang => s.langFilter
  | .team => s.teamFilter

def setFilter (s : Scope) (d : Dimension) (o : JsObject) : Scope :=
  match d with
  | .champion => { s with championFilter := some o }
  | .lang => { s with langFilter := some o }
  | .team => { s with teamFilter := some o }

@[simp] theorem filter_setFilter (s : Scope) (d e : Dimension) (o : JsObject) :
    (s.setFilter d o).filter e = if e = d then some o else s.filter e := by
  cases d <;> cases e <;> rfl

@[simp] theorem streams_setFilter (s : Scope) (d : Dimension) (o : JsObject) :
    (s.setFilter d o).streams = s.streams := by cases d <;> rfl

@[simp] theorem filter_streams (s : Scope) (l : List Stream) (d : Dimension) :
    { s with streams := some l }.filter d = s.filter d := by cases d <;> rfl

end Scope

/-- The filter function of a dynamic dimension. -/
def filterBy (d : Dimension) (s : Scope) (stream : Stream) : Except JsError (Option Value) :=
  selectFrom (s.filter d) ((d.attr stream).map JsField.key)

def filterchampion : Scope → Stream → Except JsError (Option Value) := filterBy .champion
def filterlang : Scope → Stream → Except JsError (Option Value) := filterBy .lang
def filterteams : Scope → Stream → Except JsError (Option Value) := filterBy .team

def filterrank (s : Scope) (stream : Stream) : Except JsError (Option Value) :=
  s.rankFilter.select (.ok stream.rank.key)

def filterregion (s : Scope) (stream : Stream) : Except JsError (Option Value) :=
  s.regionFilter.select (.ok stream.region.key)

def filteringame (s : Scope) (stream : Stream) : Except JsError (Option Value) :=
  s.ingameFilter.select (.ok stream.status.key)

def filtergametype (s : Scope) (stream : Stream) : Except JsError (Option Value) :=
  s.gametypeFilter.select (stream.streamer.deref.map fun streamer => streamer.gender.key)

def filterfav (s : Scope) (stream : Stream) : Except JsError (Option Value) :=
  selectFrom s.favFilter (stream.channel.deref.map Channel.name)

/-- A click on an option of a dynamic dimension. -/
def clickOption (d : Dimension) (option : String) (s : Scope) : Outcome :=
  match s.filter d with
  | none => .threw s
  | some o => .done (s.setFilter d (o.toggle option))

def clickChampion : String → Scope → Outcome := clickOption .champion
def clickLang : String → Scope → Outcome := clickOption .lang
def clickTeam : String → Scope → Outcome := clickOption .team

def clickRank (rank : String) (s : Scope) : Scope :=
  { s with rankFilter := s.rankFilter.toggle rank }

def clickRegion (region : String) (s : Scope) : Scope :=
  { s with regionFilter := s.regionFilter.toggle region }

def clickIngame (ingame : String) (s : Scope) : Scope :=
  { s with ingameFilter := s.ingameFilter.toggle ingame }

def clickGametype (gametype : Int) (s : Scope) : Scope :=
  { s with gametypeFilter := s.gametypeFilter.toggle (toString gametype) }

end LolStreams
