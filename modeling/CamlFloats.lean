import CamlFloats.Double
import CamlFloats.Compare
import CamlFloats.Value
import CamlFloats.Layout
import CamlFloats.Classify
import CamlFloats.Sign
import CamlFloats.Runtime
import CamlFloats.Parse
import CamlFloats.Ints
import CamlFloats.Format
import CamlFloats.Rounding
import CamlFloats.Nearest
import CamlFloats.Arith
import CamlFloats.Laws
import CamlFloats.Fallbacks
