import NameResolution.Session
import NameResolution.Log.Config
import NameResolution.Proofs.Cache.History
import NameResolution.Proofs.Path.Collapse
import NameResolution.Proofs.Loader.Probing
import NameResolution.Proofs.Session.Run
import NameResolution.Proofs.Path.Key
import NameResolution.Proofs.Session.Transparency
import NameResolution.Proofs.Session.StaleMiss
import NameResolution.Proofs.Json.Grammar
import NameResolution.Proofs.Json.Place
import NameResolution.Proofs.Json.Reading
import NameResolution.Proofs.Json.Numeral
import NameResolution.Proofs.Json.Quoted
import NameResolution.Proofs.Json.Token
import NameResolution.Proofs.Jsonc.Decoration
import NameResolution.Proofs.Settings.Document
import NameResolution.Proofs.Cache.Change
import NameResolution.Proofs.Cache.Answers
import NameResolution.Proofs.Host.Calls
import NameResolution.Proofs.Host.Recording
import NameResolution.Proofs.Host.Forgetting
import NameResolution.Proofs.Json.Accepted.Token
import NameResolution.Proofs.Json.Accepted.Tree
import NameResolution.Proofs.Json.Accepted.Reading
import NameResolution.Proofs.Jsonc.Glyphs
import NameResolution.Proofs.Jsonc.Cleaning
import NameResolution.Proofs.Settings.Accepted
import NameResolution.Proofs.Cache.Counters
import NameResolution.Proofs.Cache.Life
import NameResolution.Proofs.Cache.Asking
import NameResolution.Proofs.Session.Viewpoint
import NameResolution.Proofs.Session.Interference
import NameResolution.Proofs.Loader.Undoing
import NameResolution.Proofs.Loader.Fallback
import NameResolution.Proofs.Cache.Membership
import NameResolution.Proofs.Host.Membership
import NameResolution.Proofs.Cache.Commuting
import NameResolution.Proofs.Settings.Anchoring
import NameResolution.Proofs.Settings.Fields
import NameResolution.Proofs.Settings.Refusal
import NameResolution.Proofs.Settings.Lines
import NameResolution.Proofs.Settings.Meaning
import NameResolution.Proofs.Settings.Faithful
import NameResolution.Proofs.Settings.Rearranging
import NameResolution.Proofs.Text.LowerCase
import NameResolution.Proofs.Text.FinalSigma
import NameResolution.Proofs.Text.Trim
import NameResolution.Proofs.Path.Canonical
import NameResolution.Proofs.Host.Spelling
import NameResolution.Proofs.Path.Letters
import NameResolution.Proofs.Path.Drive
import NameResolution.Proofs.Path.NormalForm
import NameResolution.Proofs.Jsonc.Lines
import NameResolution.Proofs.Json.Located.Token
import NameResolution.Proofs.Json.Located.Reading
import NameResolution.Proofs.Json.Meaning.Characters
import NameResolution.Proofs.Json.Meaning.Tree
import NameResolution.Proofs.Json.Meaning.Value
import NameResolution.Proofs.Json.Meaning.Record
import NameResolution.Proofs.Json.Meaning.Rearranging
import NameResolution.Proofs.Path.Ascending
import NameResolution.Proofs.Path.Child
import NameResolution.Proofs.Disk.Walk
import NameResolution.Proofs.Disk.Locate
import NameResolution.Proofs.Disk.Tree
import NameResolution.Proofs.Disk.Subdirectories
import NameResolution.Proofs.Disk.RealPath
import NameResolution.Proofs.Disk.Process
import NameResolution.Proofs.FileMap
import NameResolution.Proofs.Session.Storage
