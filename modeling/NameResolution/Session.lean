import NameResolution.Cancellation
import NameResolution.Disk.Change
import NameResolution.Disk.Process
import NameResolution.FileMap
import NameResolution.Host
import NameResolution.Loader.Probing
import NameResolution.Loader.Scripted
import NameResolution.Settings.Document

/-!
# Sessions

A session is a host together with everything it works with: files, scripts, the
project, loaders. It takes one command after the other. A *question* changes
nothing; every other command changes the host, or what the host works with. The
answer to a command carries what became visible while it was carried out.
-/

namespace NameResolution

/-- A script that is open in an editor. -/
structure Script where
  name : String
  text : String
  version : String
deriving Repr, DecidableEq

/-- Where the files of a session are. -/
inductive Storage where
  | memory (files : FileMap) (casePolicy : CasePolicy) (cwd executing : Path)
  | disk (disk : Disk) (pinned : Option Path) (executing : Path)

namespace Storage

/-- The file system over a storage. -/
def fileSystem (newLine : String) : Storage → FileSystem
  | memory files casePolicy cwd executing => files.fileSystem casePolicy cwd executing newLine
  | disk d pinned executing => d.fileSystem pinned executing newLine

def addFile (p : Path) (text : String) : Storage → Storage
  | memory files casePolicy cwd executing => memory (files.insert p text) casePolicy cwd executing
  | disk d pinned executing => disk (d.write p text.toUTF8.toList) pinned executing

def removeFile (p : Path) : Storage → Storage
  | memory files casePolicy cwd executing => memory (files.erase p) casePolicy cwd executing
  | disk d pinned executing => disk (d.removeFile p) pinned executing

def mapDisk (f : Disk → Disk) : Storage → Storage
  | memory files casePolicy cwd executing => memory files casePolicy cwd executing
  | disk d pinned executing => disk (f d) pinned executing

end Storage

/-- The loaders of a session. -/
inductive Loaders where
  | probing
  | scripted (script : LoaderScript)

namespace Loaders

def moduleLoader : Loaders → ModuleLoader
  | probing => Probing.moduleLoader
  | scripted script => script.moduleLoader

def typeLoader : Loaders → TypeLoader
  | probing => Probing.typeLoader
  | scripted script => script.typeLoader

/-- Gives scripted loaders another script. -/
def rescript (script : LoaderScript) : Loaders → Loaders
  | probing => probing
  | scripted _ => scripted script

end Loaders

/-- Settings as they are handed over: as a document, or as they are. -/
inductive SettingsSource where
  | document (text : String) (directory : Path)
  | given (settings : Settings)

/-- The settings that were handed over. -/
def SettingsSource.read : SettingsSource → Except SettingsError Settings
  | document text directory => Settings.ofDocument text directory
  | given settings => .ok settings

/-- A host and what it works with. -/
structure Session where
  host : Host
  storage : Storage
  newLine : String
  scripts : List Script
  project : Project
  loaders : Loaders
  hasTrace : Bool
  cancellation : Cancellation

inductive Answer where
  | done
  | flag (value : Bool)
  | text (value : String)
  | textIfAny (value : Option String)
  | texts (values : List String)
  | path (value : Path)
  | paths (values : List Path)
  | keys (values : List CanonicalKey)
  | modules (targets : List (Option ModuleTarget))
  | types (targets : List (Option TypeTarget))
  | resolution (value : Resolution ModuleTarget)
  | settings (value : Settings)
  | stats (modules types : Stats)
  | failed (error : FileError)
  | refused (error : SettingsError)

/-- The answer of a file system, or why there is none. -/
def Answer.ofFile {α : Type} (answer : α → Answer) : Except FileError α → Answer
  | .ok a => answer a
  | .error e => .failed e

/-- A command that changes nothing. -/
inductive Question where
  | settings
  | stats
  | hasCached (file : String)
  /-- What a module name resolves to when no cache is looked at. -/
  | resolveAfresh (name file : String)
  | isCancelled
  | isCaseSensitive
  | version
  | newLine
  | currentDirectory
  | defaultLibrary (settings : SettingsSource)
  | hasTrace
  | trace (message : String)
  | scriptNames
  | scriptText (file : String)
  | scriptVersion (file : String)
  | resolvePath (path : Path)
  | fileExists (path : Path)
  | directoryExists (path : Path)
  | readText (path : Path)
  | realPath (path : Path)
  | filesBelow (path : Path) (endings : List String)
  | subdirectories (path : Path)

/-- What a session can be told to do. -/
inductive Command where
  | ask (question : Question)
  | resolveModules (names : List String) (file : String)
  | resolveTypes (names : List String) (file : String)
  | startRecording
  | finishRecording
  | notifyRemoved (file : String)
  | replaceSettings (settings : SettingsSource)
  | addFile (path : Path) (text : String)
  | removeFile (path : Path)
  | makeDirectory (path : Path)
  | removeDirectory (path : Path)
  | changeDirectory (path : Path)
  | writeBytes (path : Path) (bytes : List UInt8)
  | makeLink (path : Path) (target : String)
  | openScript (script : Script)
  | setVersion (version : String)
  | setProject (name : String)
  | setAutoDiscovery (allowed : Bool)
  | setTypingsCache (directory : Option Path)
  | setLoaderScript (script : LoaderScript)
  | cancel
  | reset

namespace Session

/-- The files of a session, as its host sees them. -/
def files (s : Session) : FileSystem := s.storage.fileSystem s.newLine

/-- What the host of a session works with. -/
def collaborators (s : Session) : Collaborators where
  files := s.files
  project := s.project
  moduleLoader := s.loaders.moduleLoader
  typeLoader := s.loaders.typeLoader
  hasTrace := s.hasTrace

/-- The first open script of a name. -/
def script? (s : Session) (name : String) : Option Script :=
  s.scripts.find? fun script => script.name == name

def answer (s : Session) : Question → Observed Answer
  | .settings => pure (.settings s.host.settings)
  | .stats => pure (.stats s.host.modules.stats s.host.types.stats)
  | .hasCached file => return .flag (← s.host.hasCached s.collaborators file)
  | .resolveAfresh name file =>
    return .resolution (← s.host.resolveAfresh s.collaborators name file)
  | .isCancelled => pure (.flag s.cancellation.isRequested)
  | .isCaseSensitive => pure (.flag (s.files.casePolicy == .sensitive))
  | .version => pure (.text s.project.version)
  | .newLine => pure (.text s.files.newLine)
  | .currentDirectory => return .path (← s.files.currentDirectory)
  | .defaultLibrary source =>
    pure <| match source.read with
      | .ok settings => .path (defaultLibraryPath s.files settings)
      | .error e => .refused e
  | .hasTrace => pure (.flag s.hasTrace)
  | .trace message => do
    s.collaborators.surroundings.trace message
    return .done
  | .scriptNames => pure (.texts (s.scripts.map Script.name))
  | .scriptText file => pure (.textIfAny ((s.script? file).map Script.text))
  | .scriptVersion file => pure (.textIfAny ((s.script? file).map Script.version))
  | .resolvePath p => return .path (← s.files.resolvePath p)
  | .fileExists p => pure (.flag (s.files.fileExists p))
  | .directoryExists p => pure (.flag (s.files.directoryExists p))
  | .readText p => pure (.ofFile .text (s.files.readText p))
  | .realPath p => pure (.ofFile .path (s.files.realPath p))
  | .filesBelow p endings => pure (.ofFile .paths (s.files.filesBelow p endings))
  | .subdirectories p => pure (.ofFile .paths (s.files.subdirectories p))

def mapStorage (s : Session) (f : Storage → Storage) : Session := { s with storage := f s.storage }

def mapProject (s : Session) (f : Project → Project) : Session := { s with project := f s.project }

/-- A change that nothing is said about. -/
def silently (s : Session) : Observed Answer × Session := (pure .done, s)

def step (s : Session) : Command → Observed Answer × Session
  | .ask question => (s.answer question, s)
  | .resolveModules names file =>
    let (targets, host) := s.host.resolveModules s.collaborators names file
    (.modules <$> targets, { s with host := host })
  | .resolveTypes names file =>
    let (targets, host) := s.host.resolveTypes s.collaborators names file
    (.types <$> targets, { s with host := host })
  | .startRecording => silently { s with host := s.host.startRecording }
  | .finishRecording =>
    let (keys, host) := s.host.finishRecording
    (pure (.keys keys), { s with host := host })
  | .notifyRemoved file =>
    let (done, host) := s.host.removeFile s.collaborators file
    ((fun _ => .done) <$> done, { s with host := host })
  | .replaceSettings source =>
    match source.read with
    | .error e => (pure (.refused e), s)
    | .ok settings =>
      let (done, host) := s.host.replaceSettings settings
      ((fun _ => .done) <$> done, { s with host := host })
  | .addFile p text => silently (s.mapStorage (Storage.addFile p text))
  | .removeFile p => silently (s.mapStorage (Storage.removeFile p))
  | .makeDirectory p => silently (s.mapStorage (Storage.mapDisk (·.makeDirectories p)))
  | .removeDirectory p => silently (s.mapStorage (Storage.mapDisk (·.removeDirectory p)))
  | .changeDirectory p => silently (s.mapStorage (Storage.mapDisk (·.changeDirectory p)))
  | .writeBytes p bytes => silently (s.mapStorage (Storage.mapDisk (·.write p bytes)))
  | .makeLink p target => silently (s.mapStorage (Storage.mapDisk (·.makeLink p target.toList)))
  | .openScript script => silently { s with scripts := s.scripts ++ [script] }
  | .setVersion version => silently (s.mapProject fun p => { p with version := version })
  | .setProject name => silently (s.mapProject fun p => { p with name := name })
  | .setAutoDiscovery allowed => silently (s.mapProject fun p => { p with autoDiscovery := allowed })
  | .setTypingsCache directory => silently (s.mapProject fun p => { p with typingsCache := directory })
  | .setLoaderScript script => silently { s with loaders := s.loaders.rescript script }
  | .cancel => silently { s with cancellation := s.cancellation.cancel }
  | .reset => silently { s with cancellation := s.cancellation.reset }

end Session

end NameResolution
