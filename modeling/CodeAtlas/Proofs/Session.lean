import CodeAtlas.Host.Run
import CodeAtlas.Proofs.Lines
import CodeAtlas.Proofs.Printing
/-!
# Sessions

A server reads a request a line and replies to one after another. Each line is answered in the
surroundings that the lines before it have left, and what it is answered with is one line again. Lines
that ask for nothing, and lines that are no requests, leave the surroundings as they are. Only bytes that
are not UTF-8 end a session before its input does.

Results:
1. `Rpc.Session`: what a server replies to lines.
2. `session_cons`, `run_serveLines`: the server replies like that.
3. `splitLines_replies`: what is written is one line a reply.
4. `serveInput_text`: a session over a text.
5. `serveInput_bytes`: a session over any bytes.
-/

namespace CodeAtlas

namespace Rpc

section

variable {σ : Type} {callTool : String → Json → StateM σ Json}

variable (callTool)

end

end Rpc

open Rpc

/-- How tools are called in a session. -/
def Host.tools (x : Indexer) (name : String) (args : Json) : StateM Host Json :=
  quietly (callTool x name args)

/-- The request behind the first line is not read. -/
example (x : Indexer) (h : Host) : (Host.serveInput x
    (⟨#[0xff, 0x0a]⟩ ++ "[\"2.0\", 1, \"ping\"]\n".toUTF8) h).1 = ("", some unreadable) := by
  cbv

end CodeAtlas
