import Pobc.Iot.PobcTag
import Pobc.Iot.PobcDomains
import Pobc.Iot.PobcNonces
import Pobc.Iot.SivMac
import Pobc.Iot.SivRoundTrip
import Pobc.Iot.SivDomains
import Pobc.Iot.SivErrors
import Pobc.Iot.PmacRoundTrip
import Pobc.Iot.ModesForgery
import Pobc.Iot.JolteonRoundTrip
import Pobc.Iot.JolteonTweaks
import Pobc.Iot.JolteonAd
import Pobc.Iot.EspeonRoundTrip
import Pobc.Iot.EspeonAd
import Pobc.Iot.GenerateVectors
import Pobc.Iot.XexFork
import Pobc.Iot.FixsliceKeys
import Pobc.Iot.FixsliceInverse
import Pobc.Iot.MbedtlsRun
import Pobc.Blake2s.Digest
import Pobc.Mimc.Permutation
import Pobc.Mimc.Outputs
import Pobc.Mimc.HtmacRoundTrip
import Pobc.Mimc.Bounds
import Pobc.Mimc.OnLimbs
import Pobc.Mpc.Openings
import Pobc.Mpc.RoundTrips
import Pobc.Mpc.PobcLayout
import Pobc.Mpc.SivInputs
import Pobc.Interop
import Pobc.InteropGcm
import Pobc.InteropPmac
import Pobc.InteropModes
