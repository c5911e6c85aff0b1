import Motion.Document.Frame
import Motion.Main
import Motion.Path.Trace
import Motion.Record.Written
import Motion.Style.Paint
import Motion.Style.Transform
import Motion.Scalar.Fingerprint
import Motion.Scene.Stage
import Motion.Proofs.Scalar.Embedding
import Motion.Proofs.Scene.Chain
import Motion.Proofs.Scene.Seams
import Motion.Proofs.Scene.Clipping
import Motion.Proofs.Easing.Constant
import Motion.Proofs.Easing.Coordinates
import Motion.Proofs.Path.Trace
import Motion.Proofs.Style.Placement
import Motion.Proofs.Document.Easings
import Motion.Proofs.Document.Idempotence
import Motion.Proofs.Document.Retrying
import Motion.Proofs.Style.Attribution
import Motion.Proofs.Scene.Precedence
import Motion.Proofs.Path.Bounds
import Motion.Proofs.Scene.Within
import Motion.Proofs.Scene.Normal
import Motion.Proofs.Scene.Restored
import Motion.Proofs.Scene.Shown
import Motion.Proofs.Scalar.Availability
import Motion.Proofs.Document.Storing
import Motion.Proofs.Easing.Occurrence
import Motion.Proofs.Document.Listings
import Motion.Proofs.Document.Moving
import Motion.Proofs.Document.Gradients
import Motion.Proofs.Document.References
import Motion.Proofs.Number.Lossless
import Motion.Proofs.Path.Decoding
import Motion.Proofs.Path.Hull
import Motion.Proofs.Document.Retention
import Motion.Proofs.Number.Digits
import Motion.Proofs.Number.Grid
import Motion.Proofs.Number.Minimal
import Motion.Proofs.Number.Runtime
