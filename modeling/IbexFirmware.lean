import IbexFirmware.BootImage
import IbexFirmware.OwnershipLocked
import IbexFirmware.OwnershipPowerLoss
import IbexFirmware.VersionUpdate
import IbexFirmware.RescueModes
import IbexFirmware.RescueFlash
import IbexFirmware.SecMmio
import IbexFirmware.Epmp
import IbexFirmware.DiceAttestation
import IbexFirmware.RsaCofactor
import IbexFirmware.RsaUsable
import IbexFirmware.SimulateFlash
import IbexFirmware.Cbor
import IbexFirmware.CertTemplate
import IbexFirmware.SignatureScan
import IbexFirmware.PageProgram
import IbexFirmware.OwnerReads
import IbexFirmware.FlashRead
import IbexFirmware.AesGcmRuns
import IbexFirmware.RsaVerify
import IbexFirmware.RsaOaep
import IbexFirmware.Mgf1
import IbexFirmware.KeySelect
import IbexFirmware.UsbTransfer
import IbexFirmware.FlashWrite
import IbexFirmware.Kmac
import IbexFirmware.PrintWidth
import IbexFirmware.HexdumpLines
import IbexFirmware.UjsonExact
import IbexFirmware.GhashRuns
import IbexFirmware.Csrng
import IbexFirmware.DerivedSecrets
import IbexFirmware.HmacTag
import IbexFirmware.Kwp
import IbexFirmware.BootLog
import IbexFirmware.Math
import IbexFirmware.KeyChecksums
import IbexFirmware.Startup
import IbexFirmware.TcpServer
import IbexFirmware.Sha256Otbn
import IbexFirmware.Sha512Otbn
import IbexFirmware.AesModesCalls
import IbexFirmware.SpxVerify
