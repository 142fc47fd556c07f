import ModuleScript.Command

/-!
A plain reading of arguments, for the program itself: one flag, and the names of files. It knows no
other options and no help text, and no theorem is about it; commands are described by `Options`.
-/

namespace ModuleScript

namespace CommandLine

def noNativesFlag : String := "--no-natives"

def options (args : List String) : Options where
  files := args.filter (· ≠ noNativesFlag)
  withNatives := noNativesFlag ∉ args

def run (args : List String) (around : Surroundings) (limit : Nat) : Option Report :=
  Command.run (options args) around limit

end CommandLine

end ModuleScript
