/-
The error codes of `error.h` and the hardened constants of `hardened.h`.

The source compares whole code words, and `boot_data_check` computes one by
exclusive or, so each code keeps its 32-bit value (`RomError.code`). A function
that returns `kErrorOk` on success and is only ever called for its error is
modelled as a program that returns or stops with the code.
-/
import IbexFirmware.Lib.Bytes

set_option autoImplicit false

namespace IbexFirmware

open Bytes

def kHardenedBoolTrue : u32 := 0x739
def kHardenedBoolFalse : u32 := 0x1d4

/-- `HARDENED_CHECK`, which traps. -/
def hardened_check (c : Prop) [Decidable c] : Option Unit := if c then some () else none

theorem hardened_check_eq_some {c : Prop} [Decidable c] {u : Unit} :
    hardened_check c = some u ↔ c := by
  unfold hardened_check
  split_ifs with h
  · exact iff_of_true rfl h
  · exact iff_of_false nofun h

def MODULE_CODE (ch0 ch1 : Char) : u32 :=
  BitVec.ofNat 32 ch0.toNat <<< 8 ||| BitVec.ofNat 32 ch1.toNat

def kModuleSigverify : u32 := MODULE_CODE 'S' 'V'
def kModuleManifest : u32 := MODULE_CODE 'M' 'A'
def kModuleEpmp : u32 := MODULE_CODE 'E' 'P'
def kModuleOtbn : u32 := MODULE_CODE 'B' 'N'
def kModuleFlashCtrl : u32 := MODULE_CODE 'F' 'C'
def kModuleBootPolicy : u32 := MODULE_CODE 'B' 'P'
def kModuleBootstrap : u32 := MODULE_CODE 'B' 'S'
def kModuleBootData : u32 := MODULE_CODE 'B' 'D'
def kModuleSpiDevice : u32 := MODULE_CODE 'S' 'P'
def kModuleBootSvc : u32 := MODULE_CODE 'B' 'C'
def kModuleBootLog : u32 := MODULE_CODE 'B' 'L'
def kModuleRomExt : u32 := MODULE_CODE 'R' 'E'
def kModuleAsn1 : u32 := MODULE_CODE 'A' '1'
def kModuleXModem : u32 := MODULE_CODE 'X' 'M'
def kModuleRescue : u32 := MODULE_CODE 'R' 'C'
def kModuleCert : u32 := MODULE_CODE 'C' 'E'
def kModuleOwnership : u32 := MODULE_CODE 'O' 'W'
def kModulePersoTlv : u32 := MODULE_CODE 'P' 'T'
def kModuleDice : u32 := MODULE_CODE 'D' 'C'
def kModuleUsb : u32 := MODULE_CODE 'U' 'S'

def kCancelled : u32 := 1
def kUnknown : u32 := 2
def kInvalidArgument : u32 := 3
def kDeadlineExceeded : u32 := 4
def kNotFound : u32 := 5
def kAlreadyExists : u32 := 6
def kPermissionDenied : u32 := 7
def kResourceExhausted : u32 := 8
def kFailedPrecondition : u32 := 9
def kOutOfRange : u32 := 11
def kInternal : u32 := 13
def kDataLoss : u32 := 15

def ERROR_ (error module status : u32) : u32 := error <<< 24 ||| module <<< 8 ||| status

inductive RomError where
  | kErrorOk
  | kErrorWriteBootdataThenReboot
  | kErrorUnknown
  | kErrorSigverifyBadRsaSignature
  | kErrorSigverifyBadSpxSignature
  | kErrorSigverifyLargeRsaSignature
  | kErrorSigverifyBadEcdsaSignature
  | kErrorSigverifyBadSpxConfig
  | kErrorSigverifyEcdsaNotFound
  | kErrorSigverifySpxNotFound
  | kErrorManifestBadEntryPoint
  | kErrorManifestBadCodeRegion
  | kErrorManifestBadSignedRegion
  | kErrorManifestBadExtension
  | kErrorManifestBadVersionMajor
  | kErrorEpmpBadCheck
  | kErrorOtbnInvalidArgument
  | kErrorOtbnBadOffsetLen
  | kErrorOtbnExecutionFailed
  | kErrorOtbnSecWipeImemFailed
  | kErrorOtbnSecWipeDmemFailed
  | kErrorOtbnBadInsnCount
  | kErrorOtbnUnavailable
  | kErrorFlashCtrlInfoRead
  | kErrorFlashCtrlDataWrite
  | kErrorFlashCtrlInfoWrite
  | kErrorFlashCtrlDataErase
  | kErrorFlashCtrlInfoErase
  | kErrorFlashCtrlDataEraseVerify
  | kErrorBootPolicyBadIdentifier
  | kErrorBootPolicyBadLength
  | kErrorBootPolicyRollback
  | kErrorBootstrapEraseAddress
  | kErrorBootstrapProgramAddress
  | kErrorBootstrapInvalidState
  | kErrorBootDataNotFound
  | kErrorBootDataWriteCheck
  | kErrorBootDataInvalid
  | kErrorSpiDevicePayloadOverflow
  | kErrorBootSvcBadHeader
  | kErrorBootSvcBadSlot
  | kErrorBootSvcBadSecVer
  | kErrorRomExtBootFailed
  | kErrorXModemTimeoutStart
  | kErrorXModemTimeoutPacket
  | kErrorXModemTimeoutData
  | kErrorXModemTimeoutCrc
  | kErrorXModemTimeoutAck
  | kErrorXModemCrc
  | kErrorXModemEndOfFile
  | kErrorXModemCancel
  | kErrorXModemUnknown
  | kErrorXModemProtocol
  | kErrorXModemTooManyErrors
  | kErrorXModemBadLength
  | kErrorBootLogInvalid
  | kErrorAsn1Internal
  | kErrorAsn1StartInvalidArgument
  | kErrorAsn1PushBytesInvalidArgument
  | kErrorAsn1PushIntegerPadInvalidArgument
  | kErrorAsn1PushIntegerInvalidArgument
  | kErrorAsn1FinishBitstringInvalidArgument
  | kErrorAsn1BufferExhausted
  | kErrorRescueReboot
  | kErrorRescueBadMode
  | kErrorRescueImageTooBig
  | kErrorRescueSendStart
  | kErrorCertInternal
  | kErrorCertInvalidArgument
  | kErrorCertInvalidSize
  | kErrorOwnershipInvalidNonce
  | kErrorOwnershipInvalidMode
  | kErrorOwnershipInvalidSignature
  | kErrorOwnershipInvalidState
  | kErrorOwnershipInvalidRequest
  | kErrorOwnershipInvalidTag
  | kErrorOwnershipInvalidTagLength
  | kErrorOwnershipDuplicateItem
  | kErrorOwnershipFlashConfigLength
  | kErrorOwnershipInvalidInfoPage
  | kErrorOwnershipBadInfoPage
  | kErrorOwnershipNoOwner
  | kErrorOwnershipKeyNotFound
  | kErrorOwnershipInvalidDin
  | kErrorOwnershipUnlockDenied
  | kErrorOwnershipFlashConfigRomExt
  | kErrorOwnershipFlashConfigBounds
  | kErrorOwnershipInvalidAlgorithm
  | kErrorOwnershipFlashConfigSlots
  | kErrorOwnershipInvalidRescueBounds
  | kErrorOwnershipSignatureNotFound
  | kErrorOwnershipISFBNotPresent
  | kErrorOwnershipISFBProductExpCnt
  | kErrorOwnershipISFBStrikeMask
  | kErrorOwnershipISFBProductExp
  | kErrorOwnershipISFBFailed
  | kErrorOwnershipISFBPage
  | kErrorOwnershipISFBSize
  | kErrorOwnershipOWNRVersion
  | kErrorOwnershipAPPKVersion
  | kErrorOwnershipFLSHVersion
  | kErrorOwnershipINFOVersion
  | kErrorOwnershipRESQVersion
  | kErrorOwnershipISFBVersion
  | kErrorDiceCwtCoseKeyNotFound
  | kErrorPersoTlvInternal
  | kErrorPersoTlvCertObjNotFound
  | kErrorPersoTlvCertNameTooLong
  | kErrorPersoTlvOutputBufTooSmall
  | kErrorUsbBadSetup
  | kErrorUsbBadEndpointNumber
  deriving DecidableEq

def RomError.code : RomError → u32
  | kErrorOk => 0x739
  | kErrorWriteBootdataThenReboot => 0x2ea
  | kErrorUnknown => 0xffffffff
  | kErrorSigverifyBadRsaSignature => ERROR_ 1 kModuleSigverify kInvalidArgument
  | kErrorSigverifyBadSpxSignature => ERROR_ 2 kModuleSigverify kInvalidArgument
  | kErrorSigverifyLargeRsaSignature => ERROR_ 6 kModuleSigverify kInvalidArgument
  | kErrorSigverifyBadEcdsaSignature => ERROR_ 7 kModuleSigverify kInvalidArgument
  | kErrorSigverifyBadSpxConfig => ERROR_ 10 kModuleSigverify kInvalidArgument
  | kErrorSigverifyEcdsaNotFound => ERROR_ 11 kModuleSigverify kNotFound
  | kErrorSigverifySpxNotFound => ERROR_ 12 kModuleSigverify kNotFound
  | kErrorManifestBadEntryPoint => ERROR_ 1 kModuleManifest kInternal
  | kErrorManifestBadCodeRegion => ERROR_ 2 kModuleManifest kInternal
  | kErrorManifestBadSignedRegion => ERROR_ 3 kModuleManifest kInternal
  | kErrorManifestBadExtension => ERROR_ 4 kModuleManifest kInternal
  | kErrorManifestBadVersionMajor => ERROR_ 5 kModuleManifest kInternal
  | kErrorEpmpBadCheck => ERROR_ 1 kModuleEpmp kInternal
  | kErrorOtbnInvalidArgument => ERROR_ 1 kModuleOtbn kInvalidArgument
  | kErrorOtbnBadOffsetLen => ERROR_ 2 kModuleOtbn kInvalidArgument
  | kErrorOtbnExecutionFailed => ERROR_ 3 kModuleOtbn kInternal
  | kErrorOtbnSecWipeImemFailed => ERROR_ 4 kModuleOtbn kInternal
  | kErrorOtbnSecWipeDmemFailed => ERROR_ 5 kModuleOtbn kInternal
  | kErrorOtbnBadInsnCount => ERROR_ 6 kModuleOtbn kInternal
  | kErrorOtbnUnavailable => ERROR_ 7 kModuleOtbn kInternal
  | kErrorFlashCtrlInfoRead => ERROR_ 2 kModuleFlashCtrl kInternal
  | kErrorFlashCtrlDataWrite => ERROR_ 3 kModuleFlashCtrl kInternal
  | kErrorFlashCtrlInfoWrite => ERROR_ 4 kModuleFlashCtrl kInternal
  | kErrorFlashCtrlDataErase => ERROR_ 5 kModuleFlashCtrl kInternal
  | kErrorFlashCtrlInfoErase => ERROR_ 6 kModuleFlashCtrl kInternal
  | kErrorFlashCtrlDataEraseVerify => ERROR_ 7 kModuleFlashCtrl kInternal
  | kErrorBootPolicyBadIdentifier => ERROR_ 1 kModuleBootPolicy kInternal
  | kErrorBootPolicyBadLength => ERROR_ 2 kModuleBootPolicy kInternal
  | kErrorBootPolicyRollback => ERROR_ 3 kModuleBootPolicy kInternal
  | kErrorBootstrapEraseAddress => ERROR_ 1 kModuleBootstrap kInvalidArgument
  | kErrorBootstrapProgramAddress => ERROR_ 2 kModuleBootstrap kInvalidArgument
  | kErrorBootstrapInvalidState => ERROR_ 3 kModuleBootstrap kInvalidArgument
  | kErrorBootDataNotFound => ERROR_ 1 kModuleBootData kInternal
  | kErrorBootDataWriteCheck => ERROR_ 2 kModuleBootData kInternal
  | kErrorBootDataInvalid => ERROR_ 3 kModuleBootData kInternal
  | kErrorSpiDevicePayloadOverflow => ERROR_ 1 kModuleSpiDevice kInternal
  | kErrorBootSvcBadHeader => ERROR_ 1 kModuleBootSvc kInternal
  | kErrorBootSvcBadSlot => ERROR_ 2 kModuleBootSvc kInvalidArgument
  | kErrorBootSvcBadSecVer => ERROR_ 3 kModuleBootSvc kInvalidArgument
  | kErrorRomExtBootFailed => ERROR_ 1 kModuleRomExt kFailedPrecondition
  | kErrorXModemTimeoutStart => ERROR_ 1 kModuleXModem kDeadlineExceeded
  | kErrorXModemTimeoutPacket => ERROR_ 2 kModuleXModem kDeadlineExceeded
  | kErrorXModemTimeoutData => ERROR_ 3 kModuleXModem kDeadlineExceeded
  | kErrorXModemTimeoutCrc => ERROR_ 4 kModuleXModem kDeadlineExceeded
  | kErrorXModemTimeoutAck => ERROR_ 5 kModuleXModem kDeadlineExceeded
  | kErrorXModemCrc => ERROR_ 6 kModuleXModem kDataLoss
  | kErrorXModemEndOfFile => ERROR_ 7 kModuleXModem kOutOfRange
  | kErrorXModemCancel => ERROR_ 8 kModuleXModem kCancelled
  | kErrorXModemUnknown => ERROR_ 9 kModuleXModem kUnknown
  | kErrorXModemProtocol => ERROR_ 10 kModuleXModem kInvalidArgument
  | kErrorXModemTooManyErrors => ERROR_ 11 kModuleXModem kFailedPrecondition
  | kErrorXModemBadLength => ERROR_ 12 kModuleXModem kInvalidArgument
  | kErrorBootLogInvalid => ERROR_ 1 kModuleBootLog kInternal
  | kErrorAsn1Internal => ERROR_ 1 kModuleAsn1 kInternal
  | kErrorAsn1StartInvalidArgument => ERROR_ 2 kModuleAsn1 kInvalidArgument
  | kErrorAsn1PushBytesInvalidArgument => ERROR_ 3 kModuleAsn1 kInvalidArgument
  | kErrorAsn1PushIntegerPadInvalidArgument => ERROR_ 4 kModuleAsn1 kInvalidArgument
  | kErrorAsn1PushIntegerInvalidArgument => ERROR_ 5 kModuleAsn1 kInvalidArgument
  | kErrorAsn1FinishBitstringInvalidArgument => ERROR_ 6 kModuleAsn1 kInvalidArgument
  | kErrorAsn1BufferExhausted => ERROR_ 7 kModuleAsn1 kResourceExhausted
  | kErrorRescueReboot => ERROR_ 0 kModuleRescue kInternal
  | kErrorRescueBadMode => ERROR_ 1 kModuleRescue kInvalidArgument
  | kErrorRescueImageTooBig => ERROR_ 2 kModuleRescue kFailedPrecondition
  | kErrorRescueSendStart => ERROR_ 4 kModuleRescue kInternal
  | kErrorCertInternal => ERROR_ 0 kModuleCert kInternal
  | kErrorCertInvalidArgument => ERROR_ 1 kModuleCert kInvalidArgument
  | kErrorCertInvalidSize => ERROR_ 2 kModuleCert kDataLoss
  | kErrorOwnershipInvalidNonce => ERROR_ 0 kModuleOwnership kInvalidArgument
  | kErrorOwnershipInvalidMode => ERROR_ 1 kModuleOwnership kInvalidArgument
  | kErrorOwnershipInvalidSignature => ERROR_ 2 kModuleOwnership kInvalidArgument
  | kErrorOwnershipInvalidState => ERROR_ 3 kModuleOwnership kInvalidArgument
  | kErrorOwnershipInvalidRequest => ERROR_ 4 kModuleOwnership kInvalidArgument
  | kErrorOwnershipInvalidTag => ERROR_ 5 kModuleOwnership kInvalidArgument
  | kErrorOwnershipInvalidTagLength => ERROR_ 6 kModuleOwnership kInvalidArgument
  | kErrorOwnershipDuplicateItem => ERROR_ 7 kModuleOwnership kAlreadyExists
  | kErrorOwnershipFlashConfigLength => ERROR_ 8 kModuleOwnership kOutOfRange
  | kErrorOwnershipInvalidInfoPage => ERROR_ 9 kModuleOwnership kInvalidArgument
  | kErrorOwnershipBadInfoPage => ERROR_ 10 kModuleOwnership kInternal
  | kErrorOwnershipNoOwner => ERROR_ 11 kModuleOwnership kInternal
  | kErrorOwnershipKeyNotFound => ERROR_ 12 kModuleOwnership kNotFound
  | kErrorOwnershipInvalidDin => ERROR_ 13 kModuleOwnership kInvalidArgument
  | kErrorOwnershipUnlockDenied => ERROR_ 14 kModuleOwnership kPermissionDenied
  | kErrorOwnershipFlashConfigRomExt => ERROR_ 15 kModuleOwnership kInvalidArgument
  | kErrorOwnershipFlashConfigBounds => ERROR_ 16 kModuleOwnership kInvalidArgument
  | kErrorOwnershipInvalidAlgorithm => ERROR_ 17 kModuleOwnership kInvalidArgument
  | kErrorOwnershipFlashConfigSlots => ERROR_ 18 kModuleOwnership kInvalidArgument
  | kErrorOwnershipInvalidRescueBounds => ERROR_ 19 kModuleOwnership kInvalidArgument
  | kErrorOwnershipSignatureNotFound => ERROR_ 20 kModuleOwnership kNotFound
  | kErrorOwnershipISFBNotPresent => ERROR_ 0x60 kModuleOwnership kNotFound
  | kErrorOwnershipISFBProductExpCnt => ERROR_ 0x61 kModuleOwnership kOutOfRange
  | kErrorOwnershipISFBStrikeMask => ERROR_ 0x62 kModuleOwnership kPermissionDenied
  | kErrorOwnershipISFBProductExp => ERROR_ 0x63 kModuleOwnership kPermissionDenied
  | kErrorOwnershipISFBFailed => ERROR_ 0x64 kModuleOwnership kInternal
  | kErrorOwnershipISFBPage => ERROR_ 0x65 kModuleOwnership kInvalidArgument
  | kErrorOwnershipISFBSize => ERROR_ 0x66 kModuleOwnership kInvalidArgument
  | kErrorOwnershipOWNRVersion => ERROR_ 0x70 kModuleOwnership kInvalidArgument
  | kErrorOwnershipAPPKVersion => ERROR_ 0x71 kModuleOwnership kInvalidArgument
  | kErrorOwnershipFLSHVersion => ERROR_ 0x72 kModuleOwnership kInvalidArgument
  | kErrorOwnershipINFOVersion => ERROR_ 0x73 kModuleOwnership kInvalidArgument
  | kErrorOwnershipRESQVersion => ERROR_ 0x74 kModuleOwnership kInvalidArgument
  | kErrorOwnershipISFBVersion => ERROR_ 0x75 kModuleOwnership kInvalidArgument
  | kErrorDiceCwtCoseKeyNotFound => ERROR_ 1 kModuleDice kNotFound
  | kErrorPersoTlvInternal => ERROR_ 0 kModulePersoTlv kInternal
  | kErrorPersoTlvCertObjNotFound => ERROR_ 1 kModulePersoTlv kNotFound
  | kErrorPersoTlvCertNameTooLong => ERROR_ 2 kModulePersoTlv kOutOfRange
  | kErrorPersoTlvOutputBufTooSmall => ERROR_ 3 kModulePersoTlv kOutOfRange
  | kErrorUsbBadSetup => ERROR_ 0 kModuleUsb kInvalidArgument
  | kErrorUsbBadEndpointNumber => ERROR_ 1 kModuleUsb kInvalidArgument

/-- No error has the code of success. -/
theorem RomError.code_eq_ok {error : RomError} : error.code = code .kErrorOk ↔ error = .kErrorOk := by
  constructor
  · intro h
    cases error
    case kErrorOk => rfl
    all_goals exact absurd h (by decide)
  · rintro rfl
    rfl

end IbexFirmware
