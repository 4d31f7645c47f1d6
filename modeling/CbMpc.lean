import CbMpc.Outcome
import CbMpc.OrderedMap
import CbMpc.Interpolation
import CbMpc.ModArith
import CbMpc.Curve
import CbMpc.AccessTree
import CbMpc.Labelling
import CbMpc.Sharing
import CbMpc.Reconstruct
import CbMpc.AdditiveShare
import CbMpc.Messages
import CbMpc.AncestorCheck
import CbMpc.AcDkg
import CbMpc.AcHonest
import CbMpc.AcRefresh
import CbMpc.AcSafety
import CbMpc.AcAgreement
import CbMpc.Dkg
import CbMpc.OtMultiply
import CbMpc.Refresh
import CbMpc.BitString
import CbMpc.Bytes
import CbMpc.BitMatrix
import CbMpc.Ecdsa
import CbMpc.EcdsaMp
import CbMpc.OtExtension
import CbMpc.CorrelatedOt
import CbMpc.NthResidues
import CbMpc.Paillier
import CbMpc.ZkEcdsa2p
import CbMpc.Ecdsa2p
import CbMpc.ZkTwoPaillier
import CbMpc.Ecdsa2pKeys
import CbMpc.Feldman
import CbMpc.Tdh2
import CbMpc.AccessStructure
import CbMpc.Reordering
import CbMpc.Converter
import CbMpc.Convert
import CbMpc.ConvertTree
import CbMpc.Serialization
import CbMpc.Unfolding
import CbMpc.FlatStructure
import CbMpc.KeyBlob
import CbMpc.DetachedKey
import CbMpc.HeldKeys
import CbMpc.KeyBlob2p
import CbMpc.DetachedKey2p
import CbMpc.HeldKeys2p
import CbMpc.KeyBackup
import CbMpc.Schnorr
import CbMpc.SchnorrMp
import CbMpc.Schnorr2p
import CbMpc.ElGamal
import CbMpc.EcdsaMpCheck
import CbMpc.PrefixCode
import CbMpc.CodeWords
import CbMpc.HashInput
import CbMpc.Received
import CbMpc.Commitment
import CbMpc.CommittedBroadcast
import CbMpc.Exchange
import CbMpc.GroupMessage
import CbMpc.BundledMessage
import CbMpc.HdDerive
import CbMpc.Spelling
import CbMpc.PveBlob
import CbMpc.TotientInverse
import CbMpc.PaillierExact
import CbMpc.ValidPaillier
import CbMpc.ZkPaillierZero
import CbMpc.ZkUnknownOrder
import CbMpc.ZkEcdsaSound
import CbMpc.LinearProof
import CbMpc.Fischlin
import CbMpc.FischlinRows
import CbMpc.BnCompare
import CbMpc.EcdsaRecovery
import CbMpc.KeyOutput
import CbMpc.LazySum
import CbMpc.UcProofsSound
import CbMpc.WindowedMul
import CbMpc.FieldWords
import CbMpc.LucasTest
import CbMpc.FieldRoots
import CbMpc.PointEncoding
import CbMpc.EdwardsHalving
import CbMpc.Ed25519Group
import CbMpc.SubgroupTest
import CbMpc.BoolVectorCodec
import CbMpc.BitTransposition
import CbMpc.LimbMemory
import CbMpc.BitsT
import CbMpc.BitsRun
import CbMpc.LagrangeInt
import CbMpc.HornerPoly
import CbMpc.PolynomialHelpers
import CbMpc.BatchDlSound
import CbMpc.PveAcSound
import CbMpc.ZkElgamal
import CbMpc.PvwOt
import CbMpc.PaillierPedersenEqual
import CbMpc.Pdl
