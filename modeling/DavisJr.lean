import DavisJr.Lib.Outcome
import DavisJr.Lib.Traced
import DavisJr.Lib.Fields
import DavisJr.Lib.Str
import DavisJr.Lib.Glob
import DavisJr.Lib.Table
import DavisJr.Lib.Multimap
import DavisJr.Lib.First
import DavisJr.Lib.Mask
import DavisJr.Lib.Prog
import DavisJr.Lib.Pool
import DavisJr.Lib.Follow
import DavisJr.Lib.Linear
import DavisJr.Lib.Update
import DavisJr.Http
import DavisJr.Errors
import DavisJr.Path
import DavisJr.Parse
import DavisJr.Match
import DavisJr.Cursor
import DavisJr.Walk
import DavisJr.Verdict
import DavisJr.Grammar
import DavisJr.Capture
import DavisJr.Keys
import DavisJr.Fill
import DavisJr.Print
import DavisJr.Handler
import DavisJr.Router
import DavisJr.Laws
import DavisJr.App
import DavisJr.Dispatch
import DavisJr.Shadow
import DavisJr.Crash
import DavisJr.Links
import DavisJr.Alike
import DavisJr.Async
import DavisJr.Serve
import DavisJr.SharedState
import DavisJr.AuthWithState
import DavisJr.TestApp
