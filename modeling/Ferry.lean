import Ferry.Ignore.Policy
import Ferry.Materialize.Protect
import Ferry.Materialize.Refused
import Ferry.Packs.Accepted
import Ferry.Packs.Checked
import Ferry.Packs.Folder
import Ferry.Packs.Grace
import Ferry.Packs.Handles
import Ferry.Packs.Membership
import Ferry.Packs.Tables
import Ferry.Pairing.Append
import Ferry.Pairing.Retry
import Ferry.Pairing.Typos
import Ferry.Platform.DaemonLock
import Ferry.Scan.Admission
import Ferry.Scan.Rehash
import Ferry.Session.Fetching
import Ferry.Session.Messages
import Ferry.Session.TreeFetch
import Ferry.Store.Fingerprint
import Ferry.Sync.Engine
import Ferry.Sync.Gate
import Ferry.Sync.HeldLedger
import Ferry.Sync.Pointers
