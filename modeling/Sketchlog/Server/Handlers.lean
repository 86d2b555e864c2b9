import Sketchlog.Lib.Checked

/-!
# `server.py`: the requests that change a stream
-/

namespace Sketchlog.Server

open Checked

/-- `HTTPException`. -/
structure HttpError where
  statusCode : ℕ
  detail : String
  deriving DecidableEq

/-- The checks that `ingest_events` makes of the names in its path. -/
def checkNames (streamId space : String) : Except HttpError Unit := do
  failIf (255 < streamId.length) ⟨422, "Stream ID too long"⟩
  failIf (255 < space.length) ⟨422, "Namespace too long"⟩

end Sketchlog.Server
