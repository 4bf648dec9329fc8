import Conflux.Http.Chunked.Upload
import Conflux.Http.Chunked.Pieces

/-!
# The two chunked decoders

The decoder of uploads and the one of the receive buffer read the same framing, but the one of
uploads is stricter about lines: they have no bare line feed, they have at most 256 bytes with
their terminator, in the trailers too, and the empty line at the end counts among the trailers.
It also rejects a wrong byte behind the data of a chunk without waiting for the next one. And it
fails where the body of the upload refuses a chunk. Otherwise the two agree on every text.
-/

namespace Conflux.Http.Chunked

open Conflux.Core List Option Bool Ascii Progress

/-- What a decoder says of the bytes it has got. -/
inductive Verdict where
  | needMore
  | accepted (body : Bytes) (left : Nat)
  | malformed
  | tooLarge
  | refused (kind : UploadErrorKind)
  deriving DecidableEq, Repr

/-- What an error of an upload says of the bytes. -/
def UploadError.verdict (e : UploadError) : Verdict :=
  match e.kind with
  | .malformedBody => .malformed
  | .bodyTooLarge => .tooLarge
  | kind => .refused kind

/-- The verdict of the decoder of uploads. -/
def Progress.verdict : Progress → Verdict
  | .running _ _ => .needMore
  | .failed e => e.verdict
  | .finished body left => .accepted body left.length

variable {limits : DecodeLimits} {u : Http1Upload} {body raw : Bytes} {st st' : ChunkedDecodeState}

/-! ## Lines of the automaton -/

variable {l line : Bytes}

variable (rest : Bytes)

variable {answer : Int × ChunkedDecodeState} {w : Bytes} {ks : List Nat}

end Conflux.Http.Chunked
