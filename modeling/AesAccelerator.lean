import AesAccelerator.Lib.BinaryPoly
import AesAccelerator.Lib.Clocked
import AesAccelerator.Lib.Packed
import AesAccelerator.Lib.ShiftPipeline
import AesAccelerator.Lib.Interleaving
import AesAccelerator.Lib.Loop
import AesAccelerator.Lib.CArray
import AesAccelerator.Lib.Memory
import AesAccelerator.Fips197
import AesAccelerator.Tables
import AesAccelerator.RoundPe
import AesAccelerator.KeyExpansion
import AesAccelerator.Datapath
import AesAccelerator.InverseCipher
import AesAccelerator.ExpansionTiming
import AesAccelerator.Rounder
import AesAccelerator.Transactions
import AesAccelerator.Core
import AesAccelerator.KeySync
import AesAccelerator.KeyChange
import AesAccelerator.Run
import AesAccelerator.KeyStalls
import AesAccelerator.Scoreboard
import AesAccelerator.Conservation
import AesAccelerator.Keyed
import AesAccelerator.KeyPerPacket
import AesAccelerator.Undisturbed
import AesAccelerator.Serial
import AesAccelerator.BackToBack
import AesAccelerator.CoreProgress
import AesAccelerator.S00Axi
import AesAccelerator.KeyPort
import AesAccelerator.BusPort
import AesAccelerator.Ip
import AesAccelerator.Lockstep
import AesAccelerator.Unkeyed
import AesAccelerator.Twins
import AesAccelerator.KeyLoad
import AesAccelerator.Erasure
import AesAccelerator.KeyUpload
import AesAccelerator.AesHw
import AesAccelerator.Chunks
import AesAccelerator.Dma
import AesAccelerator.Flow
import AesAccelerator.SafeProgram
import AesAccelerator.Calls
import AesAccelerator.InPlace
import AesAccelerator.CallSequences
import AesAccelerator.NeverDrops
import AesAccelerator.SerialCalls
import AesAccelerator.QuietKeys
import AesAccelerator.Design
import AesAccelerator.DesignRefinement
import AesAccelerator.DesignProgress
import AesAccelerator.Blocks
import AesAccelerator.AesC
import AesAccelerator.MicroAes
import AesAccelerator.MicroKeyExpansion
import AesAccelerator.Rijndael
import AesAccelerator.Ecb
import AesAccelerator.HelloWorld
