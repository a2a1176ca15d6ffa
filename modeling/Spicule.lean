import Spicule.Malloc.Ownership
import Spicule.Mqueue.Delivery
import Spicule.Mqueue.Atomicity
import Spicule.Rwlock.Safety
import Spicule.Rwlock.Failure
import Spicule.Patch.Ed
import Spicule.Sort.Unique
import Spicule.Arith.Independence
import Spicule.Arith.Semantics
import Spicule.Gunzip.Blocks
import Spicule.Printf.RoundTrip
import Spicule.Utf.Replace
import Spicule.Utf.Locale
import Spicule.Patch.Terminates
import Spicule.Patch.ContextTrip
import Spicule.Cron.DayRule
import Spicule.Time.Inverse
import Spicule.Time.Zone
import Spicule.Inet.Ntop
import Spicule.Wordexp.Assign
import Spicule.Stdio.Stream
import Spicule.Malloc.Generic
import Spicule.Wordexp.Default
import Spicule.Qsort
import Spicule.Tsearch
import Spicule.Expr
import Spicule.Patch.Target
import Spicule.Time.IsoWeek
import Spicule.Csplit
import Spicule.Patch.Grouping
