import Marshal.Command

/-! # The command line -/
set_option autoImplicit false
namespace Marshal

def Text.toString (t : Text) : String := (String.fromUTF8? ⟨t.toArray⟩).getD ""

def systemHost : Host IO :=
  { isDirectory := fun path => do
      let place := (← IO.currentDir) / path.toString
      return !path.isEmpty && (← place.isDir)
    read := fun path => do
      try return .ok (← IO.FS.readBinFile path.toString).data.toList
      catch _ => return .error (Files.refusal "open" path Files.noSuchFile)
    create := fun path => do
      try
        IO.FS.writeBinFile path.toString ⟨#[]⟩
        return .ok ()
      catch _ => return .error (Files.refusal "open" path Files.noSuchFile)
    write := fun path t => IO.FS.writeBinFile path.toString ⟨t.toArray⟩
    print := fun t => do (← IO.getStdout).write ⟨t.toArray⟩ }

def Command.ofArguments (c : Command) : List String → Option Command
  | [] => some c
  | "-i" :: rest => ofArguments { c with interactive := true } rest
  | "-manifest" :: path :: rest => ofArguments { c with manifest := path } rest
  | "-format" :: format :: rest => ofArguments { c with format } rest
  | "-o" :: path :: rest => ofArguments { c with output := path } rest
  | "-decode" :: path :: rest => ofArguments { c with decode := path } rest
  | _ => none

def usage : String := "usage: [-manifest path] [-format text|cbor] [-o path] [-decode path] [-i]"

def runArguments (args : List String) : IO UInt32 := do
  match Command.ofArguments {} args with
  | none =>
    IO.eprintln usage
    return 2
  | some c =>
    match ← (c.run systemHost 1).run with
    | .ok _ => return 0
    | .error f =>
      IO.eprintln ("Error: " ++ f.message.toString)
      return 1

end Marshal

def main (args : List String) : IO UInt32 := Marshal.runArguments args
