import Template.Cli.Run

namespace Template.Cli

def readEntry (path : String) : IO Entry := do
  try
    return .file (← IO.FS.readBinFile path)
  catch
    | .inappropriateType _ 21 _ => return .directory
    | _ => return .missing

def findEnvironment (path? : Option String) : IO Environment := do
  if isStdin path? then
    return ⟨← (← IO.getStdin).readBinToEnd, fun _ => .missing⟩
  else
    let entry ← readEntry (path?.getD "-")
    return ⟨.empty, fun _ => entry⟩

end Template.Cli

open Template.Cli in
def main (args : List String) : IO UInt32 := do
  let env ← match Usage.standard.read args with
    | .ok request => findEnvironment request.path?
    | .error _ => pure ⟨.empty, fun _ => .missing⟩
  let outcome := execute .standard .plain env args
  IO.print outcome.stdout
  IO.eprint outcome.stderr
  return outcome.code.toUInt32
