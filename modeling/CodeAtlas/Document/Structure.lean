import CodeAtlas.Document.Value
import CodeAtlas.Structure
import CodeAtlas.Yaml.Printer
/-!
The document about the directories and files of a project.
-/

namespace CodeAtlas

namespace StructureEntry

mutual
def toYaml : StructureEntry → Yaml
  | directory path children => .record [
      ("path", some (.str path)),
      ("type", some (.str "directory")),
      ("children", some (.seq (listToYaml children)))]
  | file f => .record [
      ("path", some (.str f.path)),
      ("type", some (.str "file")),
      ("language", some (.str f.language)),
      ("size_bytes", some (.nat f.size)),
      ("symbols", some (.nat f.symbols))]

def listToYaml : List StructureEntry → List Yaml
  | [] => []
  | e :: es => toYaml e :: listToYaml es
end

end StructureEntry

/-- The text of the document. -/
def renderStructure (files : List FileSummary) : String :=
  (Yaml.record [("structure", some (.seq (StructureEntry.listToYaml (structureOf files))))]).render

end CodeAtlas
