import Synedrion.Tools.Bytes
import Synedrion.Tools.Hashing
import Synedrion.Uint.Bounded
import Synedrion.Uint.Signed
import Synedrion.Uint.Pow
import Synedrion.Params
import Synedrion.Curve
import Synedrion.Paillier.Encryption
import Synedrion.Paillier.Keys
import Synedrion.Paillier.RingPedersen
import Synedrion.Sigma.Ideal
import Synedrion.Sigma.LogStar
import Synedrion.Sigma.Dec
import Synedrion.Protocols.Common
import Synedrion.Protocols.KeyRefresh
import Synedrion.Protocols.KeyRefresh.Parties
import Synedrion.Protocols.Presigning
import Synedrion.Protocols.Presigning.Reachable
import Synedrion.Protocols.Presigning.Honest
import Synedrion.Protocols.Presigning.Agreement
import Synedrion.Protocols.Signing
import Synedrion.Protocols.Signing.Generic
import Synedrion.Protocols.InteractiveSigning
import Synedrion.Protocols.InteractiveSigning.Agreement
import Synedrion.Sessions.Auxiliary
