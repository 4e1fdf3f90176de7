import AvbCurve25519.Bytes
import AvbCurve25519.Scalar.Limbs
import AvbCurve25519.Scalar.Interval
import AvbCurve25519.Scalar.Normalize
import AvbCurve25519.Scalar.Reduce
import AvbCurve25519.Scalar.MulAdd
import AvbCurve25519.Edwards.Group
import AvbCurve25519.Field.Prime
import AvbCurve25519.Field.Fe
import AvbCurve25519.Ge.Formulas
import AvbCurve25519.Ge.FromBytes
import AvbCurve25519.Ge.Select
import AvbCurve25519.Ge.Comb
import AvbCurve25519.Ge.Scalarmult
import AvbCurve25519.Ge.BasePoint
import AvbCurve25519.Ge.Slide
import AvbCurve25519.Ge.DoubleScalarmult
import AvbCurve25519.Ed25519
import AvbCurve25519.Ed25519.Verify
import AvbCurve25519.Montgomery.XZ
import AvbCurve25519.X25519
