import Marshal.Files
import Marshal.Plan.Render
import Marshal.Plan.Snapshot

/-! # The planning command

Reads a manifest or a snapshot and writes the plan, as text or as a snapshot, to a file or to the standard
output. The command reaches the world only through a `Host`.
-/
set_option autoImplicit false
namespace Marshal

/-- What the command needs from its surroundings. A refusal says what went wrong. -/
structure Host (m : Type → Type) where
  isDirectory : Text → m Bool
  read : Text → m (Except Text Text)
  create : Text → m (Except Text Unit)
  write : Text → Text → m Unit
  print : Text → m Unit

/-- What is asked of the command. An empty path is not given. -/
structure Command where
  manifest : Text := "."
  format : Text := "text"
  output : Text := []
  decode : Text := []
  interactive : Bool := false

namespace Command

def manifestFile : Text := "bridge.toml"

def loadManifest {m : Type → Type} [Monad m] (host : Host m) (processors : Int) (path : Text) :
    ExceptT Failure m Manifest := do
  let path := if ← host.isDirectory path then FilePath.join path manifestFile else path
  match ← host.read path with
  | .error why => throw (.wrap .config .notFound (.plain why) ("read " ++ path))
  | .ok t =>
    match Manifest.parse processors t with
    | .error f => throw (.noted path f)
    | .ok manifest => return manifest

def load {m : Type → Type} [Monad m] (host : Host m) (processors : Int) (c : Command) :
    ExceptT Failure m Plan := do
  if c.decode.isEmpty then
    let manifest ← loadManifest host processors c.manifest
    match Plan.build manifest with
    | .error f => throw (.noted "build plan" f)
    | .ok plan => return plan
  else
    match ← host.read c.decode with
    | .error why => throw (.noted "read plan" (.plain why))
    | .ok t => Plan.decode t

def encode (format : Text) (p : Plan) : Except Failure Text :=
  if format = Text.ofString "text" then .ok p.render
  else if format = Text.ofString "cbor" then .ok p.encode
  else .error (.plain ("unknown format " ++ Text.quote format))

/-- Runs the command without a terminal. The output file is made before the format is looked at. -/
def run {m : Type → Type} [Monad m] (host : Host m) (processors : Int) (c : Command) :
    ExceptT Failure m Unit := do
  let plan ← c.load host processors
  if c.interactive then throw (.plain "interactive mode needs a terminal")
  if c.output.isEmpty then
    match encode c.format plan with
    | .ok t => host.print t
    | .error f => throw f
  else
    match ← host.create c.output with
    | .error why => throw (.noted "create output" (.plain why))
    | .ok _ =>
      match encode c.format plan with
      | .ok t => host.write c.output t
      | .error f => throw f

end Command

/-- Files in memory, and what was printed. -/
structure Desk where
  files : Files := {}
  printed : Text := []

def Desk.host : Host (StateM Desk) :=
  { isDirectory := fun path => return match (← get).files.spot path with
      | .directory => true
      | _ => false
    read := fun path => return (← get).files.read path
    create := fun path => do
      let d ← get
      match d.files.create path with
      | .ok files =>
        set { d with files }
        return .ok ()
      | .error why => return .error why
    write := fun path t => modify fun d => { d with files := d.files.put path t }
    print := fun t => modify fun d => { d with printed := d.printed ++ t } }

end Marshal
