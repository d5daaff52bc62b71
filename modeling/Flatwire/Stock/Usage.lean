import Flatwire.Stock.Flags

/-! Commands and their help. Every command has flags for its help and its version, which are answered here. -/

namespace Flatwire.Stock

/-- The flags of a command, by name. -/
def allFlags (form : CommandForm) : List Flag :=
  let name := form.usage.takeWhile (· != 0x20)
  let own : List Flag :=
    [⟨"help", .switch, "help for " ++ name, some 0x68, []⟩, ⟨"version", .switch, "version for " ++ name, none, []⟩]
  (form.flags ++ own).mergeSort fun a b => !Bytes.lt b.name a.name

/-- What stands for the value of a flag: the marked word of its description, or else its kind. -/
def valueWord (f : Flag) : Bytes :=
  if isSwitch f then []
  else
    match (Bytes.splitOn 0x60 f.about)[1]? with
    | some word => " " ++ word
    | none => " string"

/-- How a flag is written. -/
def flagForm (f : Flag) : Bytes :=
  let letter : Bytes := match f.letter with
    | some l => "-" ++ [l] ++ ", "
    | none => "    "
  letter ++ "--" ++ f.name ++ valueWord f

def flagText (f : Flag) : Bytes :=
  let standard : Bytes := if f.standard.isEmpty then [] else " (default " ++ Text.quote f.standard ++ ")"
  f.about.filter (· != 0x60) ++ standard

def usage (form : CommandForm) : Bytes :=
  let flags := allFlags form
  let width := flags.foldl (fun n f => max n (flagForm f).length) 0
  let line (f : Flag) : Bytes :=
    [0x20, 0x20] ++ flagForm f ++ List.replicate (width + 3 - (flagForm f).length) 0x20 ++ flagText f
  let head : List Bytes := ["Usage:", "  " ++ form.usage ++ " [flags]", "", "Flags:"]
  Bytes.unlines (head ++ flags.map line)

def dispatch (form : CommandForm) (argv : List Bytes) : Dispatch :=
  match Flags.parse (allFlags form) false argv with
  | .error e => .refused e.message (usage form)
  | .ok v =>
    if v.isOn "help" then .answered (form.summary ++ "\n\n" ++ usage form) []
    else if v.isOn "version" then
      .answered (form.usage.takeWhile (· != 0x20) ++ " version " ++ form.version ++ "\n") []
    else .run v

end Flatwire.Stock
