import Csrv.App.Balance
import Csrv.App.Churn
import Csrv.App.Cpr
import Csrv.App.Disclosure
import Csrv.App.Flush
import Csrv.App.History
import Csrv.App.LogSpec
import Csrv.App.Metrics
import Csrv.App.Passes
import Csrv.App.Paths
import Csrv.App.Quickjs
import Csrv.App.Req
import Csrv.App.Serve
import Csrv.App.Startup
import Csrv.App.Unload
import Csrv.Duktape.Dynlod
import Csrv.Duktape.Exports
import Csrv.Duktape.Readlib
import Csrv.Map.Api
import Csrv.Mongoose.Dir
import Csrv.Mongoose.Files
import Csrv.Mongoose.Glob
import Csrv.Mongoose.Listing
import Csrv.Mongoose.Reply
import Csrv.Mongoose.Ssi
import Csrv.Mongoose.Walkchunks
import Csrv.Thread.Args
import Csrv.Thread.Cancel
import Csrv.Thread.Deadlock
import Csrv.Thread.Exclusion
import Csrv.Thread.Ids
import Csrv.Www.Config
import Csrv.Www.Graph
import Csrv.Www.Rps
