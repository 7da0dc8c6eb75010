import Lowering.Classes.Layout
import Lowering.Yaml.Scalar

namespace Lowering.Classes.Layout

def listLines (indent key : Text) (names : List Text) : List Text :=
  (indent ++ key ++ ":") :: names.map fun name => indent ++ "- " ++ Yaml.scalar name

def slotLines (m : MethodSlot) : List Text :=
  ["  - name: " ++ Yaml.scalar m.name, "    offset: " ++ Decimal.ofInt m.offset]

def classLines (c : ClassLayout) : List Text :=
  ["- name: " ++ Yaml.scalar c.name, "  kind: " ++ Yaml.scalar c.kind] ++
    (if c.super.isEmpty then [] else [("  super: " : Text) ++ Yaml.scalar c.super]) ++
    (if c.methods.isEmpty then [] else ("  methods:" : Text) :: c.methods.flatMap slotLines) ++
    (if c.ivars.isEmpty then [] else listLines "  " "ivars" c.ivars) ++
    (if c.constants.isEmpty then [] else listLines "  " "constants" c.constants)

def lines (l : Layout) : List Text :=
  ["version: " ++ Decimal.ofInt l.version] ++
    (if l.offsets.isEmpty then [("offsets: []" : Text)] else listLines "" "offsets" l.offsets) ++
    (if l.classes.isEmpty then [("classes: []" : Text)]
      else ("classes:" : Text) :: l.classes.flatMap classLines)

def document (l : Layout) : Text := Text.concat (l.lines.map (· ++ "\n"))

end Lowering.Classes.Layout
