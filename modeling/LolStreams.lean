import LolStreams.Scope
import LolStreams.Runs
import LolStreams.FilterOptions
import LolStreams.RequestOrder
import LolStreams.Favorites
import LolStreams.Following
import LolStreams.FollowProtocol
import LolStreams.ActiveStream
import LolStreams.Logout
import LolStreams.Ruby
import LolStreams.Streamer
import LolStreams.EditHandler
import LolStreams.Register
import LolStreams.ConcurrentEdits
import LolStreams.Routes
import LolStreams.AttributeValue
import LolStreams.NestedParams
import LolStreams.EditRoundTrip
import LolStreams.HashEach
import LolStreams.SignIn
import LolStreams.CleanUp
import LolStreams.Resave
import LolStreams.FailedEdit
import LolStreams.PartialRefresh
import LolStreams.Polling
import LolStreams.ShownList
import LolStreams.UrlParsing
import LolStreams.Urls
import LolStreams.FilterHistory
import LolStreams.Search
import LolStreams.Directory
import LolStreams.Dispatch
import LolStreams.EditSession
import LolStreams.PercentEncoding
import LolStreams.StreamLinks
import LolStreams.Chaining
import LolStreams.Dict
import LolStreams.DictRefinement
import LolStreams.ReverseCursor
import LolStreams.Scan
import LolStreams.ScanRuns
